import Ens.Lex.Within
import Ens.Lex.Holes

/-! # Strings where they stand

A string or a character is lexed the same way on its own and inside a source, when nothing is reported and the
holes of the string are seen as holes in both.
-/
set_option linter.all false
namespace Ens.Lex
open Loop Utf8

variable {h input : Text} {n i : ℕ}

def RawToken.shift (n : ℕ) (piece : RawToken) : RawToken := { piece with offset := n + piece.offset }

namespace Lexer
variable {s s' a w v : Lexer} {P : List RawToken} {D : List Diagnostic} {base base' : List ℤ}

/-- A state of the lexer in a source beside one on a text that stands there: the same pieces further on, and the same
holes inside those the text stands in. -/
structure Follows (n : ℕ) (P : List RawToken) (D : List Diagnostic) (base : List ℤ) (s v : Lexer) : Prop where
  position : v.position = n + s.position
  holes : v.holes = base ++ s.holes
  ok : HolesOk v
  pieces : v.pieces = P ++ s.pieces.map (RawToken.shift n)
  diagnostics : v.diagnostics = D

theorem Follows.emit (hf : Follows n P D base s v) (ha : a.pieces = s.pieces) (hw : w.pieces = v.pieces)
    (hp : w.position = n + a.position) (hh : w.holes = base' ++ a.holes) (hok : HolesOk w) (hd : w.diagnostics = D) (kind : SyntaxKind) :
    Follows n P D base' (a.emit kind s.position) (w.emit kind (n + s.position)) where
  position := hp
  holes := hh
  ok := hok
  pieces := by
    simp only [Lexer.emit,ha,hw,hp,hf.pieces,List.map_append,List.append_assoc,Nat.add_sub_add_left]
    rfl
  diagnostics := hd

theorem SameToken.follows {v' : Lexer} (ht : SameToken n s s' v v') (hf : Follows n P D base s v) : Follows n P D base s' v' := by
  obtain ⟨kind,hp,hp'⟩ := ht.piece
  refine ⟨ht.position,?_,?_,?_,ht.diagnostics.trans hf.diagnostics⟩
  · rw [holes,ht.stack.1,ht.stack.2,holes,ht.own.1,ht.own.2]
    exact hf.holes
  · have := hf.ok
    unfold HolesOk at this ⊢
    rw [ht.stack.1,ht.stack.2]
    exact this
  · rw [hp',hp,hf.pieces,List.map_append,List.append_assoc]
    rfl

/-! ### Escapes -/

theorem consumeEscape_within (hw : Within h input n) (hv : v.position = n + s.position) (hlt : s.position < h.length) {inString : Bool}
    (hok : s.consumeEscape h inString = .ok s') (hin : s'.position < h.length) (hq : s'.diagnostics.length = s.diagnostics.length) :
    v.consumeEscape input inString = .ok (v.moveTo (n + s'.position)) := by
  have hpos := advance_position hlt
  have hquiet {q : Lexer} {message : List ℕ} {i j : ℕ} (heq : Except.ok (q.report message i j) = (.ok s' : Except Stop Lexer))
      (hd : q.diagnostics = s.diagnostics) : False := by
    rw [← Except.ok.inj heq,report_length,hd] at hq
    omega
  have hd₁ := advance_diagnostics h s
  unfold consumeEscape at hok ⊢
  dsimp only at hok ⊢
  rw [advance_within hw hv hlt]
  split at hok
  · rename_i hend
    cases hok
    have := atEnd_eq_true.mp hend
    omega
  · rename_i hend
    have hlt₁ := atEnd_eq_false.mp (Bool.eq_false_iff.mpr hend)
    have hpos₁ := advance_position hlt₁
    have hopen : (v.moveTo (n + (s.advance h).position)).atEnd input = false := atEnd_eq_false.mpr (hw.lt (Nat.le_of_lt hlt₁))
    rw [hopen,if_neg Bool.false_ne_true,peek_within (s := s.advance h) hw (moveTo_position ..) (k := 0) hlt₁,
      advance_within (s := s.advance h) hw (moveTo_position ..) hlt₁,moveTo_moveTo]
    split at hok
    · rename_i hsimple
      cases hok
      rw [if_pos hsimple]
    · rename_i hsimple
      rw [if_neg hsimple]
      split at hok
      · rename_i hu
        rw [if_pos hu]
        split at hok
        · rename_i hhex
          have hin {k : ℕ} (hk : isHexDigit (((s.advance h).advance h).peek h k) = true) : ((s.advance h).advance h).position + k < h.length :=
            (List.getElem?_eq_some_iff.mp (peek_byte rfl fun h0 => by rw [h0] at hk; exact absurd hk (by decide))).1
          have hsame {k : ℕ} (hk : isHexDigit (((s.advance h).advance h).peek h k) = true) :
              isHexDigit ((v.moveTo (n + ((s.advance h).advance h).position)).peek input k) = true := by
            rwa [peek_within (s := (s.advance h).advance h) hw (moveTo_position ..) (hin hk)]
          obtain ⟨h0,h1,h2,h3⟩ := hhex
          have hl := hin h3
          cases hok
          rw [if_pos ⟨hsame h0,hsame h1,hsame h2,hsame h3⟩]
          have hp₁ := advance_position (show ((s.advance h).advance h).position < h.length by omega)
          have hp₂ : ((((s.advance h).advance h).advance h).advance h).position = (((s.advance h).advance h).advance h).position + 1 :=
            advance_position (by omega)
          have hp₃ : (((((s.advance h).advance h).advance h).advance h).advance h).position =
              ((((s.advance h).advance h).advance h).advance h).position + 1 := advance_position (by omega)
          rw [advance_within (s := (s.advance h).advance h) hw (moveTo_position ..) (by omega),moveTo_moveTo,
            advance_within (s := ((s.advance h).advance h).advance h) hw (moveTo_position ..) (by omega),moveTo_moveTo,
            advance_within (s := (((s.advance h).advance h).advance h).advance h) hw (moveTo_position ..) (by omega),moveTo_moveTo,
            advance_within (s := ((((s.advance h).advance h).advance h).advance h).advance h) hw (moveTo_position ..) (by omega),moveTo_moveTo]
        · obtain ⟨u,-,hok⟩ := bind_ok hok
          exact (hquiet hok ((advance_diagnostics h _).trans hd₁)).elim
      · obtain ⟨u,-,hok⟩ := bind_ok hok
        obtain ⟨x,-,hok⟩ := bind_ok hok
        have hd₂ : ((s.advance h).advance h).diagnostics = s.diagnostics := (advance_diagnostics h _).trans hd₁
        split at hok
        · exact (hquiet hok hd₂).elim
        · exact (hquiet hok hd₂).elim

/-! ### Strings -/

def endOf (h : Text) (s : Lexer) : ℕ := if h.length ≤ s.position then 1 else 0

theorem endOf_zero (hlt : s.position < h.length) : endOf h s = 0 := if_neg (by omega)

def stringRound (input : Text) (s : Lexer) : Except Stop (Flow Lexer (Lexer × BodyEnd)) :=
  if s.atEnd input then .ok (.done (s,.line))
  else
    let c := s.peek input 0
    if c = '"'.toNat then .ok (.done (s.advance input,.closed))
    else if c = '{'.toNat then do
      let stop ← holeEndOnLine input (s.position + 1)
      if stop = LineEnd.insideLiteral then
        .ok (.next ((s.report braceMessage s.position (s.position + 1)).advance input))
      else .ok (.done (s.advance input,.hole))
    else if isLineEnd c then .ok (.done (s,.line))
    else if c = '\\'.toNat then do
      let s ← s.consumeEscape input true
      .ok (.next s)
    else .ok (.next (s.advance input))

theorem stringLoop_eq : s.stringLoop input = loop .endless (stringRound input) (input.length + 1) s := rfl

theorem stringRound_next (hb : stringRound h s = .ok (.next s')) : s.position < h.length ∧ s.diagnostics.length ≤ s'.diagnostics.length := by
  unfold stringRound at hb
  dsimp only at hb
  split at hb
  · cases hb
  · rename_i hend
    refine ⟨atEnd_eq_false.mp (Bool.eq_false_iff.mpr hend),?_⟩
    split at hb
    · cases hb
    · split at hb
      · obtain ⟨stop,-,hb⟩ := bind_ok hb
        split at hb
        · cases hb
          rw [advance_diagnostics,report_length]
          exact Nat.le_succ _
        · cases hb
      · split at hb
        · cases hb
        · split at hb
          · rename_i hback
            obtain ⟨a₁,h₁,hb⟩ := bind_ok hb
            cases hb
            obtain ⟨a₂,h₂,ha₂,-⟩ := consumeEscape_ok true hback
            cases Except.ok.inj (h₂.symm.trans h₁)
            exact ha₂.reports
          · cases hb
            rw [advance_diagnostics]

theorem stringRound_done {r : Lexer × BodyEnd} (hb : stringRound h s = .ok (.done r)) : r.1.diagnostics = s.diagnostics ∧
    (h.length ≤ s.position → r.2 = .line) := by
  unfold stringRound at hb
  dsimp only at hb
  split at hb
  · cases hb
    exact ⟨rfl,fun _ => rfl⟩
  · rename_i hend
    have hlt := atEnd_eq_false.mp (Bool.eq_false_iff.mpr hend)
    refine ⟨?_,fun hge => absurd hge (by omega)⟩
    split at hb
    · cases hb
      exact advance_diagnostics h s
    · split at hb
      · obtain ⟨stop,-,hb⟩ := bind_ok hb
        split at hb
        · cases hb
        · cases hb
          exact advance_diagnostics h s
      · split at hb
        · cases hb
          rfl
        · split at hb
          · obtain ⟨a₁,-,hb⟩ := bind_ok hb
            cases hb
          · cases hb

/-- A round that goes on does so where the text stands, unless it comes to the end of the text. -/
theorem stringRound_within (hw : Within h input n) (hv : v.position = n + s.position) (hb : stringRound h s = .ok (.next s'))
    (hin : s'.position < h.length) (hq : s'.diagnostics.length = s.diagnostics.length) :
    stringRound input v = .ok (.next (v.moveTo (n + s'.position))) := by
  have hlt := (stringRound_next hb).1
  have hopen : v.atEnd input = false := atEnd_eq_false.mpr (by rw [hv]; exact hw.lt (Nat.le_of_lt hlt))
  unfold stringRound at hb ⊢
  dsimp only at hb ⊢
  rw [atEnd_eq_false.mpr hlt,if_neg Bool.false_ne_true] at hb
  rw [hopen,if_neg Bool.false_ne_true,peek_within hw hv (k := 0) hlt]
  split at hb
  · cases hb
  · rename_i hquote
    rw [if_neg hquote]
    split at hb
    · obtain ⟨stop,-,hb⟩ := bind_ok hb
      split at hb
      · cases hb
        rw [advance_diagnostics,report_length] at hq
        omega
      · cases hb
    · rename_i hbrace
      rw [if_neg hbrace]
      split at hb
      · cases hb
      · rename_i hline
        rw [if_neg hline]
        split at hb
        · rename_i hback
          obtain ⟨a₁,h₁,hb⟩ := bind_ok hb
          cases hb
          rw [if_pos hback,consumeEscape_within hw hv hlt h₁ hin hq,ok_bind]
        · rename_i hback
          cases hb
          rw [if_neg hback,advance_within hw hv hlt]

/-- A round that ends with a quote or a hole does so where the text stands, if the hole is seen there. -/
theorem stringRound_ends (hw : Within h input n) (hv : v.position = n + s.position) (hlt : s.position < h.length) {e : BodyEnd}
    (hb : stringRound h s = .ok (.done (s',e))) (he : e ≠ .line)
    (hseen : e = .hole → holeEndOnLine input (n + s'.position) ≠ .ok LineEnd.insideLiteral) :
    stringRound input v = .ok (.done (v.moveTo (n + s'.position),e)) := by
  have hopen : v.atEnd input = false := atEnd_eq_false.mpr (by rw [hv]; exact hw.lt (Nat.le_of_lt hlt))
  unfold stringRound at hb ⊢
  dsimp only at hb ⊢
  rw [atEnd_eq_false.mpr hlt,if_neg Bool.false_ne_true] at hb
  rw [hopen,if_neg Bool.false_ne_true,peek_within hw hv (k := 0) hlt,advance_within hw hv hlt]
  split at hb
  · rename_i hquote
    cases hb
    rw [if_pos hquote]
  · rename_i hquote
    rw [if_neg hquote]
    split at hb
    · rename_i hbrace
      obtain ⟨stop,-,hb⟩ := bind_ok hb
      split at hb
      · cases hb
      · cases hb
        obtain ⟨stop',hstop'⟩ := holeEndOnLine_ok input (v.position + 1)
        have hne : stop' ≠ LineEnd.insideLiteral := by
          rintro rfl
          refine hseen rfl ?_
          rw [advance_position hlt,← Nat.add_assoc,← hv,hstop']
        rw [if_pos hbrace,hstop',ok_bind,if_neg hne]
    · split at hb
      · cases hb
        exact absurd rfl he
      · split at hb
        · obtain ⟨a₁,-,hb⟩ := bind_ok hb
          cases hb
        · cases hb

theorem stringLoop_within (hw : Within h input n) (hv : v.position = n + s.position) {e : BodyEnd}
    (hok : s.stringLoop h = .ok (s',e)) (he : e ≠ .line) (hq : s'.diagnostics.length = s.diagnostics.length)
    (hseen : e = .hole → holeEndOnLine input (n + s'.position) ≠ .ok LineEnd.insideLiteral) :
    v.stringLoop input = .ok (v.moveTo (n + s'.position),e) := by
  have hlen := hw.lt (Nat.le_refl h.length)
  have hself : v = v.moveTo (n + s.position) := by rw [← hv]; rfl
  rw [stringLoop_eq] at hok ⊢
  have hlt : s.position < h.length := by
    by_contra hge
    have hend : stringRound h s = .ok (.done (s,.line)) := if_pos (atEnd_eq_true.mpr (by omega))
    rw [loop_done hend] at hok
    cases hok
    exact he rfl
  classical
  suffices hrun : ∃ r, loop .endless (stringRound input) (input.length + 1) v = .ok r ∧ r = (v.moveTo (n + s'.position),e) by
    obtain ⟨r,hr,rfl⟩ := hrun
    exact hr
  -- what ends with the line, or with a hole that is not seen as one where the text stands, counts as a report
  let bad : Lexer × BodyEnd → Prop := fun r => r.2 = .line ∨ (r.2 = .hole ∧ holeEndOnLine input (n + r.1.position) = .ok LineEnd.insideLiteral)
  refine loop_follow (I := fun a b => b = v.moveTo (n + a.position) ∧ a.position < h.length)
    (Q := fun r r' => r' = (v.moveTo (n + r.1.position),r.2))
    (fun a => a.diagnostics.length + endOf h a) (fun r => r.1.diagnostics.length + if bad r then 1 else 0) ?_ ?_ ?_ ?_
    (show h.length + 1 ≤ input.length + 1 by omega) ⟨hself,hlt⟩ hok ?_
  · intro a a' hb
    obtain ⟨hlt,hd⟩ := stringRound_next hb
    rw [endOf_zero hlt]
    omega
  · intro a r hb
    obtain ⟨hd,hline⟩ := stringRound_done hb
    rw [hd]
    unfold endOf
    split
    · rename_i hge
      rw [if_pos (Or.inl (hline hge))]
    · exact Nat.le_add_right ..
  · rintro a _ a' ⟨rfl,ha⟩ hb hm
    have hd := (stringRound_next hb).2
    rw [endOf_zero ha] at hm
    have hlt' : a'.position < h.length := by
      by_contra hge
      have : endOf h a' = 1 := if_pos (by omega)
      omega
    rw [endOf_zero hlt'] at hm
    exact ⟨_,stringRound_within hw (moveTo_position ..) hb hlt' (by omega),moveTo_moveTo ..,hlt'⟩
  · rintro a _ ⟨r,e'⟩ ⟨rfl,ha⟩ hb hm
    rw [endOf_zero ha,(stringRound_done hb).1] at hm
    have hgood : ¬bad (r,e') := by
      intro hbad
      rw [if_pos hbad] at hm
      omega
    exact ⟨_,stringRound_ends hw (moveTo_position ..) ha hb (fun he => hgood (Or.inl he)) fun he hin => hgood (Or.inr ⟨he,hin⟩),by
      rw [moveTo_moveTo]⟩
  · rw [if_neg fun hbad => hbad.elim he fun ⟨hhole,hin⟩ => hseen hhole hin,endOf_zero hlt]
    dsimp only
    omega

/-! ### Character literals -/

def characterRound (input : Text) (s : Lexer) : Except Stop (Flow Lexer (Lexer × Bool)) :=
  if s.atEnd input then .ok (.done (s,false))
  else
    let c := s.peek input 0
    if c = '\''.toNat then .ok (.done (s.advance input,true))
    else if isLineEnd c then .ok (.done (s,false))
    else if c = '\\'.toNat then do
      let s ← s.consumeEscape input false
      .ok (.next s)
    else .ok (.next (s.advance input))

theorem characterLoop_eq : s.characterLoop input = loop .endless (characterRound input) (input.length + 1) s := rfl

theorem characterRound_next (hb : characterRound h s = .ok (.next s')) :
    s.position < h.length ∧ s.diagnostics.length ≤ s'.diagnostics.length := by
  unfold characterRound at hb
  dsimp only at hb
  split at hb
  · cases hb
  · rename_i hend
    refine ⟨atEnd_eq_false.mp (Bool.eq_false_iff.mpr hend),?_⟩
    split at hb
    · cases hb
    · split at hb
      · cases hb
      · split at hb
        · rename_i hback
          obtain ⟨a₁,h₁,hb⟩ := bind_ok hb
          cases hb
          obtain ⟨a₂,h₂,ha₂,-⟩ := consumeEscape_ok false hback
          cases Except.ok.inj (h₂.symm.trans h₁)
          exact ha₂.reports
        · cases hb
          rw [advance_diagnostics]

theorem characterRound_done {r : Lexer × Bool} (hb : characterRound h s = .ok (.done r)) : r.1.diagnostics = s.diagnostics ∧
    (h.length ≤ s.position → r.2 = false) := by
  unfold characterRound at hb
  dsimp only at hb
  split at hb
  · cases hb
    exact ⟨rfl,fun _ => rfl⟩
  · rename_i hend
    have hlt := atEnd_eq_false.mp (Bool.eq_false_iff.mpr hend)
    refine ⟨?_,fun hge => absurd hge (by omega)⟩
    split at hb
    · cases hb
      exact advance_diagnostics h s
    · split at hb
      · cases hb
        rfl
      · split at hb
        · obtain ⟨a₁,-,hb⟩ := bind_ok hb
          cases hb
        · cases hb

theorem characterRound_within (hw : Within h input n) (hv : v.position = n + s.position) (hb : characterRound h s = .ok (.next s'))
    (hin : s'.position < h.length) (hq : s'.diagnostics.length = s.diagnostics.length) :
    characterRound input v = .ok (.next (v.moveTo (n + s'.position))) := by
  have hlt := (characterRound_next hb).1
  have hopen : v.atEnd input = false := atEnd_eq_false.mpr (by rw [hv]; exact hw.lt (Nat.le_of_lt hlt))
  unfold characterRound at hb ⊢
  dsimp only at hb ⊢
  rw [atEnd_eq_false.mpr hlt,if_neg Bool.false_ne_true] at hb
  rw [hopen,if_neg Bool.false_ne_true,peek_within hw hv (k := 0) hlt]
  split at hb
  · cases hb
  · rename_i hquote
    rw [if_neg hquote]
    split at hb
    · cases hb
    · rename_i hline
      rw [if_neg hline]
      split at hb
      · rename_i hback
        obtain ⟨a₁,h₁,hb⟩ := bind_ok hb
        cases hb
        rw [if_pos hback,consumeEscape_within hw hv hlt h₁ hin hq,ok_bind]
      · rename_i hback
        cases hb
        rw [if_neg hback,advance_within hw hv hlt]

theorem characterRound_ends (hw : Within h input n) (hv : v.position = n + s.position) (hlt : s.position < h.length)
    (hb : characterRound h s = .ok (.done (s',true))) : characterRound input v = .ok (.done (v.moveTo (n + s'.position),true)) := by
  have hopen : v.atEnd input = false := atEnd_eq_false.mpr (by rw [hv]; exact hw.lt (Nat.le_of_lt hlt))
  unfold characterRound at hb ⊢
  dsimp only at hb ⊢
  rw [atEnd_eq_false.mpr hlt,if_neg Bool.false_ne_true] at hb
  rw [hopen,if_neg Bool.false_ne_true,peek_within hw hv (k := 0) hlt,advance_within hw hv hlt]
  split at hb
  · rename_i hquote
    cases hb
    rw [if_pos hquote]
  · split at hb
    · cases hb
    · split at hb
      · obtain ⟨a₁,-,hb⟩ := bind_ok hb
        cases hb
      · cases hb

theorem characterLoop_within (hw : Within h input n) (hv : v.position = n + s.position)
    (hok : s.characterLoop h = .ok (s',true)) (hq : s'.diagnostics.length = s.diagnostics.length) :
    v.characterLoop input = .ok (v.moveTo (n + s'.position),true) := by
  have hlen := hw.lt (Nat.le_refl h.length)
  have hself : v = v.moveTo (n + s.position) := by rw [← hv]; rfl
  rw [characterLoop_eq] at hok ⊢
  have hlt : s.position < h.length := by
    by_contra hge
    have hend : characterRound h s = .ok (.done (s,false)) := if_pos (atEnd_eq_true.mpr (by omega))
    rw [loop_done hend] at hok
    cases hok
  suffices hrun : ∃ r, loop .endless (characterRound input) (input.length + 1) v = .ok r ∧ r = (v.moveTo (n + s'.position),true) by
    obtain ⟨r,hr,rfl⟩ := hrun
    exact hr
  refine loop_follow (I := fun a b => b = v.moveTo (n + a.position) ∧ a.position < h.length)
    (Q := fun r r' => r' = (v.moveTo (n + r.1.position),r.2))
    (fun a => a.diagnostics.length + endOf h a) (fun r => r.1.diagnostics.length + if r.2 = false then 1 else 0) ?_ ?_ ?_ ?_
    (show h.length + 1 ≤ input.length + 1 by omega) ⟨hself,hlt⟩ hok ?_
  · intro a a' hb
    obtain ⟨hlt,hd⟩ := characterRound_next hb
    rw [endOf_zero hlt]
    omega
  · intro a r hb
    obtain ⟨hd,hfalse⟩ := characterRound_done hb
    rw [hd]
    unfold endOf
    split
    · rename_i hge
      rw [if_pos (hfalse hge)]
    · exact Nat.le_add_right ..
  · rintro a _ a' ⟨rfl,ha⟩ hb hm
    have hd := (characterRound_next hb).2
    rw [endOf_zero ha] at hm
    have hlt' : a'.position < h.length := by
      by_contra hge
      have : endOf h a' = 1 := if_pos (by omega)
      omega
    rw [endOf_zero hlt'] at hm
    exact ⟨_,characterRound_within hw (moveTo_position ..) hb hlt' (by omega),moveTo_moveTo ..,hlt'⟩
  · rintro a _ ⟨r,closed⟩ ⟨rfl,ha⟩ hb hm
    rw [endOf_zero ha,(characterRound_done hb).1] at hm
    cases closed with
    | false =>
      rw [if_pos rfl] at hm
      omega
    | true => exact ⟨_,characterRound_ends hw (moveTo_position ..) ha hb,by rw [moveTo_moveTo]⟩
  · rw [if_neg (by simp),endOf_zero hlt]
    exact hq

theorem lexCharacter_within (hw : Within h input n) (hv : v.position = n + s.position) (hlt : s.position < h.length)
    (hok : s.lexCharacter h s.position = .ok s') (hq : s'.diagnostics.length = s.diagnostics.length) :
    ∃ v', v.lexCharacter input (n + s.position) = .ok v' ∧ SameToken n s s' v v' := by
  have hpos := advance_position hlt
  obtain ⟨⟨s₁,closed⟩,h₁,ha₁,-,-⟩ := characterLoop_ok (show (s.advance h).position ≤ h.length by omega)
  have ha := (advance_ahead h s).trans ha₁
  have hreports := ha.reports
  dsimp only at ha ha₁ hreports
  unfold lexCharacter at hok ⊢
  rw [h₁,ok_bind] at hok
  rw [advance_within hw hv hlt]
  dsimp only at hok ⊢
  cases closed with
  | false =>
    rw [if_pos rfl] at hok
    cases hok
    rw [emit,report_length] at hq
    omega
  | true =>
    rw [if_neg (by simp)] at hok
    by_cases hd : s₁.diagnostics.length = s.diagnostics.length
    · have hd₁ : s₁.diagnostics.length = (s.advance h).diagnostics.length := by rw [hd,advance_diagnostics]
      rw [characterLoop_within (s := s.advance h) hw (moveTo_position ..) h₁ hd₁,ok_bind,moveTo_moveTo]
      rw [if_pos hd] at hok
      obtain ⟨literal,hliteral,hok⟩ := bind_ok hok
      obtain ⟨count,hcount,hok⟩ := bind_ok hok
      dsimp only
      rw [if_neg (by simp),if_pos (show (v.moveTo (n + s₁.position)).diagnostics.length = v.diagnostics.length from rfl),
        moveTo_position,hw.substring hliteral,ok_bind,hcount,ok_bind]
      split at hok
      · obtain ⟨refusal,-,hok⟩ := bind_ok hok
        cases hok
        rw [emit,report_length] at hq
        omega
      · rename_i hone
        cases hok
        rw [if_neg hone]
        exact ⟨_,rfl,emit_same ha _⟩
    · rw [if_neg hd] at hok
      cases hok
      exact absurd hq hd

/-! ### Pieces of strings -/

theorem lexStringBody_line {start : ℕ} {atStart : Bool} (h₁ : s.stringLoop h = .ok (a,.line))
    (hok : s.lexStringBody h start atStart = .ok s') : s'.diagnostics.length = a.diagnostics.length + 1 := by
  unfold lexStringBody at hok
  rw [h₁,ok_bind] at hok
  dsimp only at hok
  rw [if_pos rfl] at hok
  cases atStart with
  | true =>
    rw [if_pos ⟨rfl,by decide⟩] at hok
    cases hok
    exact report_length
  | false =>
    rw [if_neg (by simp),if_neg Bool.false_ne_true,if_neg (by decide)] at hok
    cases hok
    split
    · exact report_length
    · exact report_length

/-- The body of a string, from its opening quote or from the brace that closes a hole, where the text stands. -/
theorem lexStringBody_follows (hw : Within h input n) (hf : Follows n P D base s v) (hs : HolesOk s) (ha : Ahead h s a)
    (hle : a.position ≤ h.length) {atStart : Bool} (hin : atStart = false → s.holes ≠ [])
    (hok : a.lexStringBody h s.position atStart = .ok s') (hq : s'.diagnostics.length = s.diagnostics.length)
    (hseen : ∀ kind, Adds s s' kind → kind = .interpolatedStringStart ∨ kind = .interpolatedStringMiddle →
      holeEndOnLine input (n + s'.position) ≠ .ok LineEnd.insideLiteral) :
    ∃ v', (v.moveTo (n + a.position)).lexStringBody input (n + s.position) atStart = .ok v' ∧ Follows n P D base s' v' := by
  obtain ⟨⟨s₂,e⟩,h₂,ha₂,-⟩ := stringLoop_ok hle
  dsimp only at ha₂
  have hall := ha.trans ha₂
  have hreports := hall.reports
  have he : e ≠ .line := by
    rintro rfl
    rw [lexStringBody_line h₂ hok] at hq
    omega
  have hloop (hq₂ : s₂.diagnostics.length = s.diagnostics.length)
      (hhole : e = .hole → holeEndOnLine input (n + s₂.position) ≠ .ok LineEnd.insideLiteral) :
      (v.moveTo (n + a.position)).stringLoop input = .ok (v.moveTo (n + s₂.position),e) := by
    have h₁ := ha.reports
    have h₂' := ha₂.reports
    exact stringLoop_within (s := a) hw (moveTo_position ..) h₂ he (by omega) hhole
  have hholes : (v.moveTo (n + s₂.position)).holes = base ++ s₂.holes := by rw [hall.holes_eq]; exact hf.holes
  unfold lexStringBody at hok ⊢
  rw [h₂,ok_bind] at hok
  dsimp only at hok
  rw [if_neg he] at hok
  cases atStart with
  | true =>
    by_cases hhole : e = .hole
    · obtain ⟨s₄,h₄,-,hh₄,hp₄,hq₄,hd₄⟩ := pushHole_holes 0 (hall.holes hs)
      rw [if_neg (by simp [hhole]),if_pos rfl,h₄,ok_bind] at hok
      cases hok
      have hadds : Adds s (s₄.emit .interpolatedStringStart s.position) .interpolatedStringStart :=
        ⟨by simp only [emit,hq₄,hall.pieces],by rw [emit,hd₄]; exact hreports⟩
      have hsee := hseen _ hadds (Or.inl rfl)
      rw [emit_position,hp₄] at hsee
      rw [emit,hd₄] at hq
      obtain ⟨v₄,h₄',hok₄,hh₄',hp₄',hq₄',hd₄'⟩ := pushHole_holes 0 (s := v.moveTo (n + s₂.position)) hf.ok
      rw [hloop hq fun _ => hsee,ok_bind]
      dsimp only
      rw [if_neg he,if_neg (by simp [hhole]),if_pos rfl,h₄',ok_bind]
      refine ⟨_,rfl,hf.emit (hq₄.trans hall.pieces) hq₄' (by rw [hp₄',hp₄]; rfl) ?_ hok₄ (hd₄'.trans hf.diagnostics) _⟩
      rw [hh₄',hh₄,hholes,List.append_assoc]
    · rw [if_pos ⟨rfl,hhole⟩] at hok
      cases hok
      rw [hloop hq fun heq => absurd heq hhole,ok_bind]
      dsimp only
      rw [if_neg he,if_pos ⟨rfl,hhole⟩]
      exact ⟨_,rfl,hf.emit (w := v.moveTo (n + s₂.position)) hall.pieces rfl rfl hholes hf.ok hf.diagnostics _⟩
  | false =>
    rw [if_neg (by simp),if_neg Bool.false_ne_true] at hok
    by_cases hhole : e = .hole
    · rw [if_pos hhole] at hok
      cases hok
      have hsee := hseen _ (emit_adds hall _) (Or.inr rfl)
      rw [hloop hq fun _ => hsee,ok_bind]
      dsimp only
      rw [if_neg he,if_neg (by simp),if_neg Bool.false_ne_true,if_pos hhole]
      exact ⟨_,rfl,hf.emit (w := v.moveTo (n + s₂.position)) hall.pieces rfl rfl hholes hf.ok hf.diagnostics _⟩
    · rw [if_neg hhole] at hok
      obtain ⟨l,d,hl⟩ : ∃ l d, s.holes = l ++ [d] := ⟨_,_,(List.dropLast_append_getLast (hin rfl)).symm⟩
      have hl₂ : s₂.holes = l ++ [d] := hall.holes_eq.trans hl
      have hne : s₂.holeStackEmpty = false := by
        rw [← Bool.not_eq_true,holeStackEmpty_iff (hall.holes hs),hl₂]
        simp
      have hlv : (v.moveTo (n + s₂.position)).holes = (base ++ l) ++ [d] := by rw [hholes,hl₂,List.append_assoc]
      have hnev : (v.moveTo (n + s₂.position)).holeStackEmpty = false := by
        rw [← Bool.not_eq_true,holeStackEmpty_iff (s := v.moveTo (n + s₂.position)) hf.ok,hlv]
        simp
      rw [hne,if_neg Bool.false_ne_true] at hok
      cases hok
      rw [hloop hq fun heq => absurd heq hhole,ok_bind]
      dsimp only
      rw [if_neg he,if_neg (by simp),if_neg Bool.false_ne_true,if_neg hhole,hnev,if_neg Bool.false_ne_true]
      obtain ⟨hokv,hpv⟩ := popHole_holes (s := v.moveTo (n + s₂.position)) hf.ok hlv
      refine ⟨_,rfl,hf.emit (w := (v.moveTo (n + s₂.position)).popHole) (a := s₂.popHole) hall.pieces rfl rfl ?_ hokv hf.diagnostics _⟩
      rw [hpv,(popHole_holes (hall.holes hs) hl₂).2]

/-! ### Tokens -/

/-- Pieces that stay on their line and are cut the same way where the text stands. -/
def Allowed (input : Text) (n : ℕ) (s s' : Lexer) : Prop := ∀ kind, Adds s s' kind → kind ≠ .newline ∧ kind ≠ .lineComment ∧
  (kind = .interpolatedStringStart ∨ kind = .interpolatedStringMiddle → holeEndOnLine input (n + s'.position) ≠ .ok LineEnd.insideLiteral)

theorem scanToken_follows (hw : Within h input n) (hf : Follows n P D base s v) (hs : HolesOk s) (hb : Boundary h.bytes s.position)
    (hlt : s.position < h.length) (hok : s.scanToken h s.position (s.peek h 0) = .ok s')
    (hq : s'.diagnostics.length = s.diagnostics.length) (hallowed : Allowed input n s s') :
    ∃ v', v.scanToken input v.position (v.peek input 0) = .ok v' ∧ Follows n P D base s' v' := by
  have hv := hf.position
  have hbyte := peek_zero_byte hlt
  have hplain {x y : Except Stop Lexer} (hx : x = .ok s') (hy : ∃ v', y = .ok v' ∧ SameToken n s s' v v') :
      ∃ v', y = .ok v' ∧ Follows n P D base s' v' := by
    obtain ⟨v',hy,hsame⟩ := hy
    exact ⟨v',hy,hsame.follows hf⟩
  rw [peek_within hw hv (k := 0) hlt,hv]
  unfold scanToken at hok ⊢
  split at hok
  · rename_i hc
    cases hok
    rw [if_pos hc]
    exact hplain rfl ⟨_,rfl,lexWhitespace_within hw hv (Nat.le_of_lt hlt)⟩
  · rename_i hspace
    rw [if_neg hspace]
    split at hok
    · cases hok
      refine absurd rfl (hallowed .newline ?_).1
      unfold lexNewline
      dsimp only
      split
      · exact emit_adds ((advance_ahead h s).trans (advance_ahead h _)) _
      · exact emit_adds (advance_ahead h s) _
    · rename_i hline
      rw [if_neg hline]
      split at hok
      · rename_i hslash
        have h1 {c : Char} (hc : ∀ e ∈ runEnds, (e = c.toNat ↔ 0 = c.toNat)) : v.peek input 1 = c.toNat ↔ s.peek h 1 = c.toNat :=
          peek_iff (P := fun b => b = c.toNat) hw hv (by omega) hc
        rw [if_pos hslash]
        split at hok
        · cases hok
          exact absurd rfl (hallowed .lineComment (emit_adds
            (((advance_ahead h s).trans (advance_ahead h _)).trans (advanceWhile_ahead h (fun c => !isLineEnd c) _)) _)).2.1
        · rename_i hnot
          rw [if_neg (mt (h1 (by decide)).mp hnot)]
          split at hok
          · rename_i hstar
            have hlen : s.position + 1 < h.length := (List.getElem?_eq_some_iff.mp (peek_byte hstar (by decide))).1
            cases hok
            rw [if_pos ((h1 (by decide)).mpr hstar)]
            exact hplain rfl ⟨_,rfl,lexBlockComment_within hw hv hlen hq⟩
          · rename_i hnot'
            rw [if_neg (mt (h1 (by decide)).mp hnot')]
            exact hplain hok (lexOperator_within hw hv hlt hok hq)
      · rename_i hslash
        rw [if_neg hslash]
        split at hok
        · rename_i hc
          rw [if_pos hc]
          exact hplain hok (lexNumber_within hw hv hb hc hok hq)
        · rename_i hdigit
          rw [if_neg hdigit]
          split at hok
          · rename_i hc
            rw [if_pos hc]
            exact hplain hok (lexIdentifierOrKeyword_within hw hv hb hok hq)
          · rename_i hident
            rw [if_neg hident]
            split at hok
            · rename_i hc
              have hpos := advance_position hlt
              rw [if_pos hc,lexString,advance_within hw hv hlt]
              exact lexStringBody_follows hw hf hs (advance_ahead h s) (by omega) nofun hok hq fun kind hadds => (hallowed kind hadds).2.2
            · rename_i hquote
              rw [if_neg hquote]
              split at hok
              · rename_i hc
                rw [if_pos hc]
                exact hplain hok (lexCharacter_within hw hv hlt hok hq)
              · rename_i hsingle
                rw [if_neg hsingle]
                exact hplain hok (lexOperator_within hw hv hlt hok hq)

end Lexer
end Ens.Lex
