import Ens.Lex.Tiling
import Mathlib.Data.List.Find

/-! # Tokens where they stand

A text is lexed the same way on its own and inside a source, where the brace that closes a hole or a quote follows it,
as long as nothing is reported on its own: no scan sees past that byte.
-/
set_option linter.all false
namespace Ens.Lex
open Loop Utf8

/-- What a run of tokens in a hole stands before: the brace that closes the hole, and the quote of a string. -/
def runEnds : List ℕ := ['}'.toNat,'"'.toNat]

/-- A text that stands in a source at a place, before what ends a run of tokens. -/
def Within (h input : Text) (n : ℕ) : Prop := ∃ e ∈ runEnds, ∃ rest, input.bytes.drop n = h.bytes ++ e :: rest

variable {h input : Text} {n i j k b : ℕ}

theorem runEnds_tail : ∀ e ∈ runEnds, ¬Utf8.Tail e := by decide

namespace Within

theorem drop (hw : Within h input n) (hi : i ≤ h.length) :
    ∃ e ∈ runEnds, ∃ rest, input.bytes.drop (n + i) = h.bytes.drop i ++ e :: rest := by
  obtain ⟨e,he,rest,hr⟩ := hw
  refine ⟨e,he,rest,?_⟩
  rw [← List.drop_drop,hr,List.drop_append_of_le_length hi]

theorem byte (hw : Within h input n) (hi : i < h.length) : input.bytes[n + i]? = h.bytes[i]? := by
  obtain ⟨e,-,rest,hr⟩ := hw
  rw [← List.getElem?_drop,hr,List.getElem?_append_left hi]

theorem last (hw : Within h input n) : ∃ e ∈ runEnds, input.bytes[n + h.length]? = some e := by
  obtain ⟨e,he,rest,hr⟩ := hw
  have hl : h.length = h.bytes.length := rfl
  refine ⟨e,he,?_⟩
  rw [← List.getElem?_drop,hr,hl,List.getElem?_append_right (Nat.le_refl _),Nat.sub_self]
  rfl

theorem lt (hw : Within h input n) (hi : i ≤ h.length) : n + i < input.length := by
  obtain ⟨e,-,hlast⟩ := hw.last
  have hlast : n + h.length < input.bytes.length := (List.getElem?_eq_some_iff.mp hlast).1
  have hl : input.length = input.bytes.length := rfl
  omega

theorem byteAt_eq (hw : Within h input n) (hi : i < h.length) : byteAt input (n + i) = byteAt h i := by
  rw [byteAt,byteAt,List.getD_eq_getElem?_getD,List.getD_eq_getElem?_getD,hw.byte hi]

/-- What tells neither what ends a run nor the end of the text from other bytes is the same in both. -/
theorem byteAt_iff (hw : Within h input n) {P : ℕ → Prop} (hP : ∀ e ∈ runEnds, (P e ↔ P 0)) (hi : i ≤ h.length) :
    P (byteAt input (n + i)) ↔ P (byteAt h i) := by
  rcases Nat.lt_or_eq_of_le hi with hi | rfl
  · rw [hw.byteAt_eq hi]
  · have hz : byteAt h h.length = 0 := by
      simp [byteAt,List.getD_eq_getElem?_getD,Text.length]
    obtain ⟨e,he,hlast⟩ := hw.last
    rw [Lexer.byteAt_some hlast,hz]
    exact hP e he

theorem boundary (hw : Within h input n) (hb : Boundary h.bytes i) : Boundary input.bytes (n + i) := by
  refine ⟨Nat.le_of_lt (hw.lt hb.1),fun b hi => ?_⟩
  rcases Nat.lt_or_eq_of_le hb.1 with hlt | rfl
  · rw [hw.byte hlt] at hi
    exact hb.2 b hi
  · obtain ⟨e,he,hlast⟩ := hw.last
    rw [show h.bytes.length = h.length from rfl,hlast] at hi
    cases hi
    exact runEnds_tail _ he

theorem slice (hw : Within h input n) (hi : i ≤ j) (hj : j ≤ h.length) :
    (input.bytes.take (n + j)).drop (n + i) = (h.bytes.take j).drop i := by
  obtain ⟨e,-,rest,hr⟩ := hw.drop (Nat.le_trans hi hj)
  have hl : h.length = h.bytes.length := rfl
  rw [List.drop_take,List.drop_take,hr,List.take_append_of_le_length (by rw [List.length_drop]; omega)]
  congr 1
  omega

theorem substring (hw : Within h input n) {u : Text} (hu : h.substring i j = .ok u) :
    input.substring (n + i) (n + j) = .ok u := by
  obtain ⟨hi,hj,hij⟩ := Text.substring_boundary hu
  obtain ⟨u',hu',hb'⟩ := Text.substring_ok hi hj hij
  obtain rfl : u' = u := Except.ok.inj (hu'.symm.trans hu)
  obtain ⟨v,hv,hb⟩ := Text.substring_ok (hw.boundary hi) (hw.boundary hj) (by omega)
  rw [hv]
  congr 1
  ext1
  rw [hb,hb',hw.slice hij hj.1]

theorem takeWhile (hw : Within h input n) {p : ℕ → Bool} (hp : ∀ e ∈ runEnds, p e = false) (hi : i ≤ h.length) :
    (input.bytes.drop (n + i)).takeWhile p = (h.bytes.drop i).takeWhile p := by
  obtain ⟨e,he,rest,hr⟩ := hw.drop hi
  rw [hr,List.takeWhile_append]
  split
  · rw [List.takeWhile_cons_of_neg (by rw [hp e he]; exact Bool.false_ne_true),List.append_nil]
    rename_i hall
    exact (List.takeWhile_prefix p).eq_of_length hall |>.symm
  · rfl

end Within

namespace Lexer
variable {s s' v : Lexer} {p : ℕ → Bool}

def moveTo (s : Lexer) (i : ℕ) : Lexer := { s with position := i }

@[simp] theorem moveTo_position (s : Lexer) (i : ℕ) : (s.moveTo i).position = i := rfl

@[simp] theorem moveTo_moveTo (s : Lexer) (i j : ℕ) : (s.moveTo i).moveTo j = s.moveTo j := rfl

theorem report_length {message : List ℕ} : (s.report message i j).diagnostics.length = s.diagnostics.length + 1 :=
  List.length_append

theorem peek_within (hw : Within h input n) (hv : v.position = n + s.position) (hk : s.position + k < h.length) :
    v.peek input k = s.peek h k := by
  rw [peek,peek,hv,Nat.add_assoc,hw.byteAt_eq hk]

theorem peek_iff (hw : Within h input n) (hv : v.position = n + s.position) (hk : s.position + k ≤ h.length) {P : ℕ → Prop}
    (hP : ∀ e ∈ runEnds, (P e ↔ P 0)) : P (v.peek input k) ↔ P (s.peek h k) := by
  rw [peek,peek,hv,Nat.add_assoc]
  exact hw.byteAt_iff hP hk

theorem advance_within (hw : Within h input n) (hv : v.position = n + s.position) (hlt : s.position < h.length) :
    v.advance input = v.moveTo (n + (s.advance h).position) := by
  rw [advance_position hlt]
  have hlt' := hw.lt (Nat.le_of_lt hlt)
  rw [advance,if_pos (by omega),moveTo,hv,Nat.add_assoc]

theorem advanceWhile_within (hw : Within h input n) (hv : v.position = n + s.position) (hle : s.position ≤ h.length)
    (hp : ∀ e ∈ runEnds, p e = false) : v.advanceWhile input p = v.moveTo (n + (s.advanceWhile h p).position) := by
  rw [advanceWhile,advanceWhile,moveTo,hv,hw.takeWhile hp hle,Nat.add_assoc]

theorem advanceWhile_le (hle : s.position ≤ h.length) : (s.advanceWhile h p).position ≤ h.length :=
  (advanceWhile_ahead h p s).stays hle

/-! ### Numbers -/

theorem advance_advance_within (hw : Within h input n) (hv : v.position = n + s.position) (hlt : s.position + 1 < h.length) :
    (v.advance input).advance input = v.moveTo (n + ((s.advance h).advance h).position) ∧
      ((s.advance h).advance h).position = s.position + 2 := by
  have h1 : (s.advance h).position = s.position + 1 := advance_position (by omega)
  have h2 : ((s.advance h).advance h).position = (s.advance h).position + 1 := advance_position (by omega)
  rw [advance_within hw hv (by omega),advance_within (s := s.advance h) hw (moveTo_position ..) (by omega),moveTo_moveTo]
  exact ⟨rfl,by omega⟩

theorem lexRadix_within (hw : Within h input n) (hv : v.position = n + s.position) (hlt : s.position + 1 < h.length)
    (hp : ∀ e ∈ runEnds, p e = false) {message : List ℕ → List ℕ} (hok : s.lexRadix h p message s.position = .ok s')
    (hq : s'.diagnostics.length = s.diagnostics.length) :
    v.lexRadix input p message (n + s.position) = .ok (v.moveTo (n + s'.position)) := by
  obtain ⟨h2,hpos⟩ := advance_advance_within hw hv hlt
  have hp' : ∀ e ∈ runEnds, (p e || decide (e = '_'.toNat)) = false := by
    intro e he
    rw [hp e he,Bool.false_or]
    exact (by decide : ∀ e ∈ runEnds, decide (e = '_'.toNat) = false) e he
  unfold lexRadix at hok ⊢
  dsimp only at hok ⊢
  rw [h2,advanceWhile_within (s := (s.advance h).advance h) (p := fun c => p c || decide (c = '_'.toNat)) hw (moveTo_position ..)
    (by omega) hp',moveTo_moveTo,moveTo_position,moveTo_position]
  split at hok
  · obtain ⟨u,-,hok⟩ := bind_ok hok
    cases hok
    rw [report_length] at hq
    simp only [advanceWhile,advance_diagnostics] at hq
    omega
  · rename_i hne
    cases hok
    rw [if_neg (by omega)]

theorem lexOctal_within (hw : Within h input n) (hv : v.position = n + s.position) (hlt : s.position + 1 < h.length)
    (hok : s.lexOctal h s.position = .ok s') (hq : s'.diagnostics.length = s.diagnostics.length) :
    v.lexOctal input (n + s.position) = .ok (v.moveTo (n + s'.position)) := by
  obtain ⟨h2,hpos⟩ := advance_advance_within hw hv hlt
  have hloud {q : Lexer} (hd : q.diagnostics = s.diagnostics) {message : List ℕ} {i j : ℕ} (heq : q.report message i j = s') :
      False := by
    rw [← heq,report_length,hd] at hq
    omega
  have hdiag : (((s.advance h).advance h).advanceWhile h fun c => isDigit c || decide (c = '_'.toNat)).diagnostics = s.diagnostics := by
    simp only [advanceWhile,advance_diagnostics]
  unfold lexOctal at hok ⊢
  dsimp only at hok ⊢
  rw [h2,advanceWhile_within (s := (s.advance h).advance h) (p := fun c => isDigit c || decide (c = '_'.toNat)) hw (moveTo_position ..)
    (by omega) (by decide),moveTo_moveTo,moveTo_position,moveTo_position,peek_within hw hv hlt]
  obtain ⟨written,hwr,hok⟩ := bind_ok hok
  rw [hw.substring hwr,ok_bind]
  split at hok
  · obtain ⟨digits,-,hok⟩ := bind_ok hok
    exact (hloud hdiag (Except.ok.inj hok)).elim
  · rename_i hcapital
    rw [if_neg hcapital]
    split at hok
    · exact (hloud hdiag (Except.ok.inj hok)).elim
    · rw [if_neg (by omega)]
      split at hok
      · cases hok
        rfl
      · obtain ⟨digit,-,hok⟩ := bind_ok hok
        exact (hloud hdiag (Except.ok.inj hok)).elim

theorem checkLeadingZero_within (hw : Within h input n) (hv : v.position = n + s.position) (hle : s.position ≤ h.length)
    (hok : s.checkLeadingZero h i = .ok s') (hq : s'.diagnostics.length = s.diagnostics.length) :
    s' = s ∧ v.checkLeadingZero input (n + i) = .ok v := by
  unfold checkLeadingZero at hok ⊢
  obtain ⟨written,hwr,hok⟩ := bind_ok hok
  rw [hv,hw.substring hwr,ok_bind]
  have hsame {c : Char} (hc : ∀ e ∈ runEnds, (e = c.toNat ↔ 0 = c.toNat)) : v.peek input 0 = c.toNat ↔ s.peek h 0 = c.toNat :=
    peek_iff (P := fun b => b = c.toNat) hw hv hle hc
  dsimp only at hok ⊢
  have hiff : (written.length < 2 ∨ written.bytes.head? ≠ some '0'.toNat ∨ v.peek input 0 = '.'.toNat ∨ v.peek input 0 = 'e'.toNat
      ∨ v.peek input 0 = 'E'.toNat) ↔ (written.length < 2 ∨ written.bytes.head? ≠ some '0'.toNat ∨ s.peek h 0 = '.'.toNat
      ∨ s.peek h 0 = 'e'.toNat ∨ s.peek h 0 = 'E'.toNat) := by
    rw [hsame (by decide),hsame (by decide),hsame (by decide)]
  split at hok
  · rename_i hc
    cases hok
    exact ⟨rfl,if_pos (hiff.mpr hc)⟩
  · split at hok
    · cases hok
      rw [report_length] at hq
      omega
    · obtain ⟨significant,-,hok⟩ := bind_ok hok
      cases hok
      rw [report_length] at hq
      omega

theorem lexFraction_within (hw : Within h input n) (hv : v.position = n + s.position) (hle : s.position ≤ h.length) :
    v.lexFraction input = (v.moveTo (n + (s.lexFraction h).1.position),(s.lexFraction h).2) := by
  have hdot : v.peek input 0 = '.'.toNat ↔ s.peek h 0 = '.'.toNat := peek_iff (P := fun b => b = '.'.toNat) hw hv hle (by decide)
  have hself : v = v.moveTo (n + s.position) := by rw [← hv]; rfl
  unfold lexFraction
  by_cases hc : s.peek h 0 = '.'.toNat ∧ isDigit (s.peek h 1) = true
  · have hlt : s.position < h.length := (List.getElem?_eq_some_iff.mp (peek_byte hc.1 (by decide))).1
    have hpos := advance_position hlt
    have hdigit : isDigit (v.peek input 1) = true ↔ isDigit (s.peek h 1) = true :=
      peek_iff (P := fun b => isDigit b = true) hw hv (by omega) (by decide)
    rw [if_pos hc,if_pos ⟨hdot.mpr hc.1,hdigit.mpr hc.2⟩,advance_within hw hv hlt,
      advanceWhile_within (s := s.advance h) hw (moveTo_position ..) (by omega) (by decide),moveTo_moveTo]
  · have hc' : ¬(v.peek input 0 = '.'.toNat ∧ isDigit (v.peek input 1) = true) := by
      rintro ⟨hd,hdigit⟩
      have hlt : s.position < h.length := (List.getElem?_eq_some_iff.mp (peek_byte (hdot.mp hd) (by decide))).1
      exact hc ⟨hdot.mp hd,(peek_iff (P := fun b => isDigit b = true) hw hv (by omega) (by decide)).mp hdigit⟩
    rw [if_neg hc,if_neg hc',← hself]

theorem lexExponent_within (hw : Within h input n) (hv : v.position = n + s.position) (hle : s.position ≤ h.length) :
    v.lexExponent input = (v.moveTo (n + (s.lexExponent h).1.position),(s.lexExponent h).2) := by
  have hsame {u w : Lexer} {c : Char} (hu : u.position = n + w.position) (hle : w.position ≤ h.length)
      (hc : ∀ e ∈ runEnds, (e = c.toNat ↔ 0 = c.toNat)) : u.peek input 0 = c.toNat ↔ w.peek h 0 = c.toNat :=
    peek_iff (P := fun b => b = c.toNat) hw hu hle hc
  have hself {u w : Lexer} (hu : u.position = n + w.position) : u = u.moveTo (n + w.position) := by rw [← hu]; rfl
  unfold lexExponent
  by_cases he : s.peek h 0 = 'e'.toNat ∨ s.peek h 0 = 'E'.toNat
  · have hlt : s.position < h.length := by
      rcases he with he | he <;> exact (List.getElem?_eq_some_iff.mp (peek_byte he (by decide))).1
    have hpos := advance_position hlt
    have he' : v.peek input 0 = 'e'.toNat ∨ v.peek input 0 = 'E'.toNat :=
      he.imp (hsame hv hle (by decide)).mpr (hsame hv hle (by decide)).mpr
    have hv₁ : (v.moveTo (n + (s.advance h).position)).position = n + (s.advance h).position := rfl
    rw [if_pos he,if_pos he',advance_within hw hv hlt]
    dsimp only
    by_cases hs : (s.advance h).peek h 0 = '+'.toNat ∨ (s.advance h).peek h 0 = '-'.toNat
    · have hlt' : (s.advance h).position < h.length := by
        rcases hs with hs | hs <;> exact (List.getElem?_eq_some_iff.mp (peek_byte hs (by decide))).1
      have hpos' := advance_position hlt'
      rw [if_pos hs,if_pos (hs.imp (hsame hv₁ (by omega) (by decide)).mpr (hsame hv₁ (by omega) (by decide)).mpr),
        advance_within hw hv₁ hlt',moveTo_moveTo,
        advanceWhile_within (s := (s.advance h).advance h) hw (moveTo_position ..) (by omega) (by decide),moveTo_moveTo]
    · rw [if_neg hs,if_neg fun hs' => hs (hs'.imp (hsame hv₁ (by omega) (by decide)).mp (hsame hv₁ (by omega) (by decide)).mp),
        advanceWhile_within hw hv₁ (by omega) (by decide),moveTo_moveTo]
  · rw [if_neg he,if_neg fun he' => he (he'.imp (hsame hv hle (by decide)).mp (hsame hv hle (by decide)).mp),← hself hv]

theorem lexFraction_diagnostics (s : Lexer) : (s.lexFraction h).1.diagnostics = s.diagnostics := by
  unfold lexFraction
  split
  · exact advance_diagnostics h s
  · rfl

theorem lexExponent_diagnostics (s : Lexer) : (s.lexExponent h).1.diagnostics = s.diagnostics := by
  unfold lexExponent
  split
  · dsimp only
    split
    · exact (advance_diagnostics h _).trans (advance_diagnostics h s)
    · exact advance_diagnostics h s
  · rfl

theorem lexDecimal_within (hw : Within h input n) (hv : v.position = n + s.position) (hle : s.position ≤ h.length) {b : Bool}
    (hok : s.lexDecimal h s.position = .ok (s',b)) (hq : s'.diagnostics.length = s.diagnostics.length) :
    v.lexDecimal input (n + s.position) = .ok (v.moveTo (n + s'.position),b) := by
  unfold lexDecimal at hok ⊢
  dsimp only at hok ⊢
  rw [advanceWhile_within hw hv hle (by decide)]
  have hle₁ := advanceWhile_le (p := fun c => isDigit c || decide (c = '_'.toNat)) hle
  obtain ⟨s₁,h₁,hok⟩ := bind_ok hok
  obtain ⟨rfl,rfl⟩ := Prod.mk.inj (Except.ok.inj hok)
  rw [lexExponent_diagnostics,lexFraction_diagnostics] at hq
  obtain ⟨rfl,h₁'⟩ := checkLeadingZero_within hw (moveTo_position v _) hle₁ h₁ hq
  have hle₂ := (lexFraction_steps h _).stays hle₁
  rw [h₁',ok_bind,lexFraction_within (v := v.moveTo _) hw (moveTo_position ..) hle₁]
  dsimp only
  rw [lexExponent_within (v := (v.moveTo _).moveTo _) hw (moveTo_position ..) hle₂]
  rfl

theorem map_ok {f : Lexer → Lexer × Bool} {x : Except Stop Lexer} {r : Lexer × Bool} (hx : x.map f = .ok r) :
    ∃ s, x = .ok s ∧ f s = r := by
  cases x with
  | error e => cases hx
  | ok s => exact ⟨s,rfl,Except.ok.inj hx⟩

theorem lexDigits_within (hw : Within h input n) (hv : v.position = n + s.position) (hlt : s.position < h.length) {b : Bool}
    (hok : s.lexDigits h s.position = .ok (s',b)) (hq : s'.diagnostics.length = s.diagnostics.length) :
    v.lexDigits input (n + s.position) = .ok (v.moveTo (n + s'.position),b) := by
  have h0 : v.peek input 0 = s.peek h 0 := peek_within hw hv hlt
  have h1 {c : Char} (hc : ∀ e ∈ runEnds, (e = c.toNat ↔ 0 = c.toNat)) : v.peek input 1 = c.toNat ↔ s.peek h 1 = c.toNat :=
    peek_iff (P := fun b => b = c.toNat) hw hv (by omega) hc
  -- what the letter after a zero says is the same in both
  have hradix {c d : Char} (hc : ∀ e ∈ runEnds, (e = c.toNat ↔ 0 = c.toNat)) (hd : ∀ e ∈ runEnds, (e = d.toNat ↔ 0 = d.toNat)) :
      (v.peek input 0 = '0'.toNat ∧ (v.peek input 1 = c.toNat ∨ v.peek input 1 = d.toNat)) ↔
        s.peek h 0 = '0'.toNat ∧ (s.peek h 1 = c.toNat ∨ s.peek h 1 = d.toNat) := by
    rw [h0,h1 hc,h1 hd]
  have hroom {c d : Char} (hc : c.toNat ≠ 0) (hd : d.toNat ≠ 0)
      (hp : s.peek h 0 = '0'.toNat ∧ (s.peek h 1 = c.toNat ∨ s.peek h 1 = d.toNat)) : s.position + 1 < h.length := by
    rcases hp.2 with hp | hp
    · exact (List.getElem?_eq_some_iff.mp (peek_byte hp hc)).1
    · exact (List.getElem?_eq_some_iff.mp (peek_byte hp hd)).1
  unfold lexDigits at hok ⊢
  dsimp only at hok ⊢
  by_cases hx : s.peek h 0 = '0'.toNat ∧ (s.peek h 1 = 'x'.toNat ∨ s.peek h 1 = 'X'.toNat)
  · rw [if_pos hx] at hok
    obtain ⟨s₁,h₁,heq⟩ := map_ok hok
    cases heq
    rw [if_pos ((hradix (by decide) (by decide)).mpr hx),
      lexRadix_within hw hv (hroom (by decide) (by decide) hx) (by decide : ∀ e ∈ runEnds, isHexDigit e = false) h₁ hq]
    rfl
  · rw [if_neg hx] at hok
    rw [if_neg (mt (hradix (by decide) (by decide)).mp hx)]
    by_cases hb : s.peek h 0 = '0'.toNat ∧ (s.peek h 1 = 'b'.toNat ∨ s.peek h 1 = 'B'.toNat)
    · rw [if_pos hb] at hok
      obtain ⟨s₁,h₁,heq⟩ := map_ok hok
      cases heq
      rw [if_pos ((hradix (by decide) (by decide)).mpr hb),
        lexRadix_within hw hv (hroom (by decide) (by decide) hb) (by decide : ∀ e ∈ runEnds, isBinaryDigit e = false) h₁ hq]
      rfl
    · rw [if_neg hb] at hok
      rw [if_neg (mt (hradix (by decide) (by decide)).mp hb)]
      by_cases ho : s.peek h 0 = '0'.toNat ∧ (s.peek h 1 = 'o'.toNat ∨ s.peek h 1 = 'O'.toNat)
      · rw [if_pos ho] at hok
        obtain ⟨s₁,h₁,heq⟩ := map_ok hok
        cases heq
        rw [if_pos ((hradix (by decide) (by decide)).mpr ho),lexOctal_within hw hv (hroom (by decide) (by decide) ho) h₁ hq]
        rfl
      · rw [if_neg ho] at hok
        rw [if_neg (mt (hradix (by decide) (by decide)).mp ho),lexDecimal_within hw hv (Nat.le_of_lt hlt) hok hq]

/-- A scan makes one piece, and the same one where the text stands, without a report and with the holes as they
were. -/
structure SameToken (n : ℕ) (s s' v v' : Lexer) : Prop where
  piece : ∃ kind, s'.pieces = s.pieces ++ [⟨kind,s.position,s'.position - s.position⟩] ∧
    v'.pieces = v.pieces ++ [⟨kind,n + s.position,s'.position - s.position⟩]
  position : v'.position = n + s'.position
  diagnostics : v'.diagnostics = v.diagnostics
  stack : v'.holeDepthStack = v.holeDepthStack ∧ v'.holeDepthCount = v.holeDepthCount
  own : s'.holeDepthStack = s.holeDepthStack ∧ s'.holeDepthCount = s.holeDepthCount

theorem emit_same {s₁ : Lexer} (ha : Ahead h s s₁) (kind : SyntaxKind) :
    SameToken n s (s₁.emit kind s.position) v ((v.moveTo (n + s₁.position)).emit kind (n + s.position)) where
  piece := by
    refine ⟨kind,?_,?_⟩
    · simp only [emit,ha.pieces]
    · simp only [emit,moveTo]
      rw [Nat.add_sub_add_left]
  position := rfl
  diagnostics := rfl
  stack := ⟨rfl,rfl⟩
  own := ⟨ha.stack,ha.count⟩

theorem lexNumber_within (hw : Within h input n) (hv : v.position = n + s.position) (hb : Boundary h.bytes s.position)
    (hc : isDigit (s.peek h 0) = true) (hok : s.lexNumber h s.position = .ok s')
    (hq : s'.diagnostics.length = s.diagnostics.length) :
    ∃ v', v.lexNumber input (n + s.position) = .ok v' ∧ SameToken n s s' v v' := by
  have hlt : s.position < h.length := (List.getElem?_eq_some_iff.mp (peek_byte rfl (peek_class (by decide) hc))).1
  obtain ⟨s₁,isFloat,h₁,hst,hlt₁⟩ := lexDigits_ok hb hc
  have hle := hst.stays (Nat.le_of_lt hlt)
  unfold lexNumber at hok ⊢
  rw [h₁,ok_bind] at hok
  have hq₁ : s₁.diagnostics.length = s.diagnostics.length := by
    have : s'.diagnostics = s₁.diagnostics := by
      dsimp only at hok
      split at hok
      · cases hok; exact advance_diagnostics h s₁
      · split at hok
        · cases hok; exact advance_diagnostics h s₁
        · split at hok
          · cases hok; exact advance_diagnostics h s₁
          · cases hok; rfl
    rw [← this,hq]
  rw [lexDigits_within hw hv hlt h₁ hq₁,ok_bind]
  have hv₁ : (v.moveTo (n + s₁.position)).position = n + s₁.position := rfl
  have hsame {c d : Char} (hc : ∀ e ∈ runEnds, (e = c.toNat ↔ 0 = c.toNat)) (hd : ∀ e ∈ runEnds, (e = d.toNat ↔ 0 = d.toNat)) :
      ((v.moveTo (n + s₁.position)).peek input 0 = c.toNat ∨ (v.moveTo (n + s₁.position)).peek input 0 = d.toNat) ↔
        s₁.peek h 0 = c.toNat ∨ s₁.peek h 0 = d.toNat := by
    rw [peek_iff (P := fun b => b = c.toNat) hw hv₁ hle hc,peek_iff (P := fun b => b = d.toNat) hw hv₁ hle hd]
  have hsuffix {c d : Char} (hc : c.toNat ≠ 0) (hd : d.toNat ≠ 0) (hp : s₁.peek h 0 = c.toNat ∨ s₁.peek h 0 = d.toNat)
      (kind : SyntaxKind) : SameToken n s ((s₁.advance h).emit kind s.position) v
        (((v.moveTo (n + s₁.position)).advance input).emit kind (n + s.position)) := by
    have hlt₂ : s₁.position < h.length := by
      rcases hp with hp | hp
      · exact (List.getElem?_eq_some_iff.mp (peek_byte hp hc)).1
      · exact (List.getElem?_eq_some_iff.mp (peek_byte hp hd)).1
    rw [advance_within hw hv₁ hlt₂,moveTo_moveTo]
    exact emit_same (hst.toAhead.trans (advance_ahead h s₁)) kind
  dsimp only at hok ⊢
  by_cases hf : s₁.peek h 0 = 'f'.toNat ∨ s₁.peek h 0 = 'F'.toNat
  · rw [if_pos hf] at hok
    cases hok
    rw [if_pos ((hsame (by decide) (by decide)).mpr hf)]
    exact ⟨_,rfl,hsuffix (by decide) (by decide) hf _⟩
  · rw [if_neg hf] at hok
    rw [if_neg (mt (hsame (by decide) (by decide)).mp hf)]
    by_cases hd : s₁.peek h 0 = 'd'.toNat ∨ s₁.peek h 0 = 'D'.toNat
    · rw [if_pos hd] at hok
      cases hok
      rw [if_pos ((hsame (by decide) (by decide)).mpr hd)]
      exact ⟨_,rfl,hsuffix (by decide) (by decide) hd _⟩
    · rw [if_neg hd] at hok
      rw [if_neg (mt (hsame (by decide) (by decide)).mp hd)]
      by_cases hl : s₁.peek h 0 = 'l'.toNat ∨ s₁.peek h 0 = 'L'.toNat
      · rw [if_pos hl] at hok
        cases hok
        rw [if_pos ((hsame (by decide) (by decide)).mpr hl)]
        exact ⟨_,rfl,hsuffix (by decide) (by decide) hl _⟩
      · rw [if_neg hl] at hok
        cases hok
        rw [if_neg (mt (hsame (by decide) (by decide)).mp hl)]
        exact ⟨_,rfl,emit_same hst.toAhead _⟩

end Lexer

/-! ### Words -/

theorem take_takeWhile {p : ℕ → Bool} {l r : List ℕ} {m d : ℕ} (hp : p d = false) :
    ((l ++ d :: r).take m).takeWhile p = (l.take m).takeWhile p := by
  rw [List.take_append,List.takeWhile_append]
  split
  · have hnil : ((d :: r).take (m - l.length)).takeWhile p = [] := by
      cases m - l.length with
      | zero => rfl
      | succ k => rw [List.take_succ_cons,List.takeWhile_cons_of_neg (by rw [hp]; exact Bool.false_ne_true)]
    rename_i hall
    rw [hnil,List.append_nil]
    exact ((List.takeWhile_prefix p).eq_of_length hall).symm
  · rfl

theorem refusedLength_within (hw : Within h input n) (hi : i ≤ h.length) : refusedLength input (n + i) = refusedLength h i := by
  obtain ⟨e,he,rest,hr⟩ := hw.drop hi
  unfold refusedLength
  rw [hr]
  cases h.bytes.drop i with
  | nil => exact if_pos ((by decide : ∀ e ∈ runEnds, (isSpace e || isLineEnd e || isDigit e || isIdentifierStart e ||
      decide (e = '"'.toNat) || decide (e = '\''.toNat) || (singleCharacterKind e).isSome) = true) e he)
  | cons c l =>
    dsimp only [List.cons_append]
    rw [take_takeWhile ((by decide : ∀ e ∈ runEnds, isContinuationByte e = false) e he)]

theorem refusedLength_le (hi : i ≤ h.length) : i + refusedLength h i ≤ h.length := by
  unfold refusedLength
  cases hd : h.bytes.drop i with
  | nil => exact hi
  | cons c l =>
    have hlen := congrArg List.length hd
    rw [List.length_drop,List.length_cons] at hlen
    have hl : h.length = h.bytes.length := rfl
    dsimp only
    split
    · exact hi
    · have h₁ := (List.takeWhile_sublist (l := l.take (utf8SequenceLength c - 1)) isContinuationByte).length_le
      have h₂ := List.length_take_le (utf8SequenceLength c - 1) l
      have h₃ := List.length_take_le' (utf8SequenceLength c - 1) l
      omega

theorem refusedRunEnd_zero (hz : refusedLength input i = 0) : refusedRunEnd input i = .ok i :=
  loop_done (if_pos hz)

theorem refusedRunEnd_within (hw : Within h input n) (hi : i ≤ h.length) (hok : refusedRunEnd h i = .ok j) :
    refusedRunEnd input (n + i) = .ok (n + j) ∧ j ≤ h.length := by
  have hlen := hw.lt (Nat.le_refl h.length)
  suffices hrun : ∃ r, refusedRunEnd input (n + i) = .ok r ∧ (r = n + j ∧ j ≤ h.length) by
    obtain ⟨r,hr,rfl,hj⟩ := hrun
    exact ⟨hr,hj⟩
  refine loop_follow (I := fun a b => b = n + a ∧ a ≤ h.length) (Q := fun a b => b = n + a ∧ a ≤ h.length)
    (fun _ => 0) (fun _ => 0) (fun _ _ _ => Nat.le_refl 0) (fun _ _ _ => Nat.le_refl 0) ?_ ?_
    (show h.length + 1 ≤ input.length + 1 by omega) ⟨rfl,hi⟩ hok rfl
  · rintro a _ a' ⟨rfl,ha⟩ hb -
    rw [refusedLength_within hw ha]
    split at hb
    · cases hb
    · rename_i hz
      cases hb
      exact ⟨_,if_neg hz,Nat.add_assoc ..,refusedLength_le ha⟩
  · rintro a _ r ⟨rfl,ha⟩ hb -
    rw [refusedLength_within hw ha]
    split at hb
    · rename_i hz
      cases hb
      exact ⟨_,if_pos hz,rfl,ha⟩
    · cases hb

namespace Lexer
variable {s s' v : Lexer} {p : ℕ → Bool}

theorem reportRefused_length (hok : s.reportRefused h i = .ok s') : s'.diagnostics.length = s.diagnostics.length + 1 := by
  obtain ⟨u,-,hok⟩ := bind_ok hok
  cases hok
  exact report_length

theorem advanceTo_diagnostics (hok : s.advanceTo h i = .ok s') : s'.diagnostics = s.diagnostics := by
  unfold advanceTo at hok
  split at hok
  · cases hok
    rfl
  · cases hok

theorem identifierLoop_within (hw : Within h input n) (hv : v.position = n + s.position) (hle : s.position ≤ h.length)
    (hok : s.identifierLoop h = .ok s') (hq : s'.diagnostics.length = s.diagnostics.length) :
    v.identifierLoop input = .ok (v.moveTo (n + s'.position)) := by
  have hlen := hw.lt (Nat.le_refl h.length)
  have hself : v = v.moveTo (n + s.position) := by rw [← hv]; rfl
  have hcont {a : Lexer} (ha : a.position ≤ h.length) :
      isIdentifierContinue ((v.moveTo (n + a.position)).peek input 0) = true ↔ isIdentifierContinue (a.peek h 0) = true :=
    peek_iff (P := fun b => isIdentifierContinue b = true) hw (moveTo_position ..) ha (by decide)
  have hopen {a : Lexer} (ha : a.position ≤ h.length) : (v.moveTo (n + a.position)).atEnd input = false :=
    atEnd_eq_false.mpr (hw.lt ha)
  suffices hrun : ∃ r, v.identifierLoop input = .ok r ∧ r = v.moveTo (n + s'.position) by
    obtain ⟨r,hr,rfl⟩ := hrun
    exact hr
  refine loop_follow (I := fun a b => b = v.moveTo (n + a.position) ∧ a.position ≤ h.length)
    (Q := fun a b => b = v.moveTo (n + a.position)) (fun a => a.diagnostics.length) (fun a => a.diagnostics.length) ?_ ?_ ?_ ?_
    (show h.length + 1 ≤ input.length + 1 by omega) ⟨hself,hle⟩ hok hq
  · intro a a' hb
    dsimp only at hb
    split at hb
    · cases hb
    · split at hb
      · cases hb
        rw [advance_diagnostics]
      · obtain ⟨e,-,hb⟩ := bind_ok hb
        split at hb
        · cases hb
        · obtain ⟨a₁,h₁,hb⟩ := bind_ok hb
          obtain ⟨a₂,h₂,hb⟩ := bind_ok hb
          cases hb
          rw [reportRefused_length h₂,advanceTo_diagnostics h₁]
          exact Nat.le_succ _
  · intro a r hb
    dsimp only at hb
    split at hb
    · cases hb
      exact Nat.le_refl _
    · split at hb
      · cases hb
      · obtain ⟨e,-,hb⟩ := bind_ok hb
        split at hb
        · cases hb
          exact Nat.le_refl _
        · obtain ⟨a₁,-,hb⟩ := bind_ok hb
          obtain ⟨a₂,-,hb⟩ := bind_ok hb
          cases hb
  · rintro a _ a' ⟨rfl,ha⟩ hb hm
    dsimp only at hb ⊢
    split at hb
    · cases hb
    · rename_i hend
      have hlt := atEnd_eq_false.mp (Bool.eq_false_iff.mpr hend)
      split at hb
      · rename_i hc
        cases hb
        have hpos := advance_position hlt
        rw [hopen ha,if_neg Bool.false_ne_true,if_pos ((hcont ha).mpr hc),advance_within (s := a) hw (moveTo_position ..) hlt]
        exact ⟨_,rfl,moveTo_moveTo ..,by omega⟩
      · obtain ⟨e,-,hb⟩ := bind_ok hb
        split at hb
        · cases hb
        · obtain ⟨a₁,h₁,hb⟩ := bind_ok hb
          obtain ⟨a₂,h₂,hb⟩ := bind_ok hb
          cases hb
          rw [reportRefused_length h₂,advanceTo_diagnostics h₁] at hm
          omega
  · rintro a _ r ⟨rfl,ha⟩ hb -
    dsimp only at hb ⊢
    rw [hopen ha,if_neg Bool.false_ne_true,moveTo_position]
    split at hb
    · rename_i hend
      cases hb
      have heq : a.position = h.length := Nat.le_antisymm ha (atEnd_eq_true.mp hend)
      obtain ⟨b,hb,hlast⟩ := hw.last
      have hbrace : (v.moveTo (n + a.position)).peek input 0 = b := by
        rw [peek,moveTo_position,heq]
        exact byteAt_some hlast
      have hcontinue : isIdentifierContinue b = false := (by decide : ∀ e ∈ runEnds, isIdentifierContinue e = false) b hb
      have hz : refusedLength input (n + a.position) = 0 := by
        rw [refusedLength_within hw ha,heq,refusedLength,List.drop_eq_nil_of_le (show h.bytes.length ≤ h.length from Nat.le_refl _)]
      rw [hbrace,if_neg (by rw [hcontinue]; exact Bool.false_ne_true),refusedRunEnd_zero hz,ok_bind,if_pos (Or.inl rfl)]
      exact ⟨_,rfl,rfl⟩
    · split at hb
      · cases hb
      · rename_i hc
        obtain ⟨e,he,hb⟩ := bind_ok hb
        obtain ⟨he',hle'⟩ := refusedRunEnd_within hw ha he
        rw [if_neg (mt (hcont ha).mp hc),he',ok_bind]
        split at hb
        · rename_i hstop
          cases hb
          have hstop' : n + e = n + a.position ∨ isIdentifierContinue (byteAt input (n + e)) = false := by
            refine hstop.imp (congrArg (n + ·)) fun hf => ?_
            exact (hw.byteAt_iff (P := fun b => isIdentifierContinue b = false) (by decide) hle').mpr hf
          rw [if_pos hstop']
          exact ⟨_,rfl,rfl⟩
        · obtain ⟨a₁,-,hb⟩ := bind_ok hb
          obtain ⟨a₂,-,hb⟩ := bind_ok hb
          cases hb

theorem lexIdentifierOrKeyword_within (hw : Within h input n) (hv : v.position = n + s.position) (hb : Boundary h.bytes s.position)
    (hok : s.lexIdentifierOrKeyword h s.position = .ok s') (hq : s'.diagnostics.length = s.diagnostics.length) :
    ∃ v', v.lexIdentifierOrKeyword input (n + s.position) = .ok v' ∧ SameToken n s s' v v' := by
  obtain ⟨s₁,h₁,hst,-⟩ := identifierLoop_ok hb
  unfold lexIdentifierOrKeyword at hok ⊢
  rw [h₁,ok_bind] at hok
  obtain ⟨text,ht,hok⟩ := bind_ok hok
  have hq₁ : s₁.diagnostics.length = s.diagnostics.length := by
    split at hok <;> (cases hok; exact hq)
  rw [identifierLoop_within hw hv hb.1 h₁ hq₁,ok_bind,moveTo_position,hw.substring ht,ok_bind]
  split at hok <;> (cases hok; exact ⟨_,rfl,emit_same hst.toAhead _⟩)

/-! ### Trivia and operators -/

theorem lexWhitespace_within (hw : Within h input n) (hv : v.position = n + s.position) (hle : s.position ≤ h.length) :
    SameToken n s (s.lexWhitespace h s.position) v (v.lexWhitespace input (n + s.position)) := by
  unfold lexWhitespace
  rw [advanceWhile_within hw hv hle (by decide)]
  exact emit_same (advanceWhile_ahead h isSpace s) _

theorem blockCommentRest_append {l r : List ℕ} (hl : (blockCommentRest l).2 = true) : blockCommentRest (l ++ r) = blockCommentRest l := by
  induction l with
  | nil => cases hl
  | cons c l ih =>
    rw [blockCommentRest] at hl
    rw [List.cons_append,blockCommentRest,blockCommentRest]
    by_cases hc : c = '*'.toNat ∧ l.head? = some '/'.toNat
    · have hhead : (l ++ r).head? = some '/'.toNat := by rw [List.head?_append,hc.2]; rfl
      rw [if_pos hc,if_pos ⟨hc.1,hhead⟩]
    · rw [if_neg hc] at hl ⊢
      cases l with
      | nil => cases hl
      | cons d l =>
        rw [if_neg (by simpa using hc),ih hl]

theorem lexBlockComment_within (hw : Within h input n) (hv : v.position = n + s.position) (hlt : s.position + 1 < h.length)
    (hq : (s.lexBlockComment h s.position).diagnostics.length = s.diagnostics.length) :
    SameToken n s (s.lexBlockComment h s.position) v (v.lexBlockComment input (n + s.position)) := by
  obtain ⟨h2,hpos⟩ := advance_advance_within hw hv hlt
  obtain ⟨b,-,rest,hr⟩ := hw.drop (show s.position + 2 ≤ h.length by omega)
  unfold lexBlockComment at hq ⊢
  dsimp only at hq ⊢
  rw [h2,moveTo_position,hpos,hr]
  rw [hpos] at hq
  split at hq
  · rename_i hclosed
    rw [blockCommentRest_append hclosed,if_pos hclosed,if_pos hclosed]
    have hle := (blockCommentRest_spec (h.bytes.drop (s.position + 2))).1
    have hall : Ahead h s { (s.advance h).advance h with position := s.position + 2 + (blockCommentRest (h.bytes.drop (s.position + 2))).1 } := by
      have ha := (advance_ahead h s).trans (advance_ahead h _)
      have hl : h.length = h.bytes.length := rfl
      rw [List.length_drop] at hle
      exact ⟨ha.pieces,ha.stack,ha.count,by dsimp only; omega,fun _ => by dsimp only; omega,ha.reports⟩
    rw [Nat.add_assoc n]
    exact emit_same hall _
  · rw [emit,report_length] at hq
    simp only [advance_diagnostics] at hq
    omega

theorem advanceBy_eq {k : ℕ} (hk : s.position + k ≤ h.length) : s.advanceBy h k = s.moveTo (s.position + k) := by
  induction k generalizing s with
  | zero => rfl
  | succ k ih =>
    have hpos : (s.advance h).position = s.position + 1 := advance_position (by omega)
    have hadv : s.advance h = s.moveTo (s.position + 1) := if_pos (show s.position < h.length by omega)
    rw [advanceBy,ih (by omega),hadv,moveTo_moveTo,moveTo_position,Nat.add_assoc,Nat.add_comm 1 k]

theorem consumeOperator_within (hw : Within h input n) (hv : v.position = n + s.position) {count : ℕ} (hc : s.position + count ≤ h.length)
    (kind : SyntaxKind) :
    SameToken n s (s.consumeOperator h count kind s.position) v (v.consumeOperator input count kind (n + s.position)) := by
  have hc' : v.position + count ≤ input.length := by
    have := hw.lt hc
    omega
  unfold consumeOperator
  rw [advanceBy_eq hc,advanceBy_eq hc',hv,Nat.add_assoc]
  have ha : Ahead h s (s.moveTo (s.position + count)) := ⟨rfl,rfl,rfl,Nat.le_add_right ..,fun _ => hc,Nat.le_refl _⟩
  exact emit_same ha kind

/-- Neither what ends a run nor a byte past the end is part of an operator. -/
theorem operators_ends : ∀ row ∈ operators, ∀ c ∈ row.1, c.toNat ≠ 0 ∧ c.toNat ∉ runEnds := by
  simp [operators,runEnds]

theorem startsWith_within (hw : Within h input n) (hv : v.position = n + s.position) (hle : s.position ≤ h.length) {operator : List Char}
    (ho : ∀ c ∈ operator, c.toNat ≠ 0 ∧ c.toNat ∉ runEnds) : v.startsWith input operator = s.startsWith h operator := by
  have hroom {u : Lexer} {source : Text} {d : ℕ} (hd : byteAt source (u.position + d) = 0 ∨ byteAt source (u.position + d) ∈ runEnds)
      (hs : u.startsWith source operator = true) : operator.length ≤ d := by
    by_contra hlt
    have he := congrArg (fun l => l[d]?) (of_decide_eq_true hs)
    have hlt : d < operator.length := by omega
    have he : u.peek source d = operator[d].toNat := by simpa [hlt] using he
    obtain ⟨h0,hb⟩ := ho operator[d] (List.getElem_mem hlt)
    rcases hd with hd | hd
    · exact h0 (he.symm.trans hd)
    · exact hb (he ▸ hd)
  have hsame (hfit : s.position + operator.length ≤ h.length) :
      (List.range operator.length).map (v.peek input) = (List.range operator.length).map (s.peek h) :=
    List.map_congr_left fun k hk => peek_within hw hv (by have := List.mem_range.mp hk; omega)
  have hend : byteAt input (v.position + (h.length - s.position)) ∈ runEnds := by
    obtain ⟨e,he,hlast⟩ := hw.last
    rw [hv,show n + s.position + (h.length - s.position) = n + h.length by omega,byteAt_some hlast]
    exact he
  have hend' : byteAt h (s.position + (h.length - s.position)) = 0 := by
    rw [show s.position + (h.length - s.position) = h.bytes.length by have : h.length = h.bytes.length := rfl; omega]
    simp [byteAt,List.getD_eq_getElem?_getD]
  rw [Bool.eq_iff_iff]
  constructor
  · intro hs
    have hfit := hroom (Or.inr hend) hs
    unfold startsWith at hs ⊢
    rwa [← hsame (by omega)]
  · intro hs
    have hfit := hroom (Or.inl hend') hs
    unfold startsWith at hs ⊢
    rwa [hsame (by omega)]

theorem lexOperator_within (hw : Within h input n) (hv : v.position = n + s.position) (hlt : s.position < h.length)
    (hok : s.lexOperator h s.position = .ok s')
    (hq : s'.diagnostics.length = s.diagnostics.length) :
    ∃ v', v.lexOperator input (n + s.position) = .ok v' ∧ SameToken n s s' v v' := by
  have hfind : (operators.find? fun row => v.startsWith input row.1) = operators.find? fun row => s.startsWith h row.1 :=
    List.find?_congr fun row hrow => startsWith_within hw hv (Nat.le_of_lt hlt) (operators_ends row hrow)
  unfold lexOperator at hok ⊢
  rw [hfind,peek_within hw hv hlt]
  split at hok
  · rename_i operator kind hf
    cases hok
    obtain ⟨-,-,hascii⟩ := operators_ascii _ (List.mem_of_find?_eq_some hf)
    have hst := List.find?_some hf
    have hfit := (advanceBy_steps (startsWith_peek hst hascii)).1.stays (Nat.le_of_lt hlt)
    rw [(advanceBy_steps (startsWith_peek hst hascii)).2] at hfit
    exact ⟨_,rfl,consumeOperator_within hw hv hfit kind⟩
  · split at hok
    · cases hok
      exact ⟨_,rfl,consumeOperator_within hw hv hlt _⟩
    · unfold lexInvalidCharacter at hok
      obtain ⟨e,-,hok⟩ := bind_ok hok
      obtain ⟨s₁,h₁,hok⟩ := bind_ok hok
      obtain ⟨s₂,h₂,hok⟩ := bind_ok hok
      cases hok
      rw [emit,reportRefused_length h₂,advanceTo_diagnostics h₁] at hq
      omega

end Lexer
end Ens.Lex
