import Ens.Lex.WordSpec

/-! # Strings and character literals

The scan of a literal goes on byte by byte and stops only at a byte of its own or at the end.
An escape is taken with the whole character it escapes.
-/
set_option linter.all false
namespace Ens.Lex
open Loop Utf8

variable {input : Text} {i b : ℕ}

theorem drop_of_byte (h : input.bytes[i]? = some b) :
    input.bytes.drop i = b :: input.bytes.drop (i + 1) := by
  obtain ⟨hlt,hget⟩ := List.getElem?_eq_some_iff.mp h
  rw [List.drop_eq_getElem_cons hlt,hget]

/-! ### The rest of a line -/

theorem literalEndOnLine_ok (input : Text) (i quote : ℕ) : ∃ stop, literalEndOnLine input i quote = .ok stop ∧
    (stop < 0 ∨ ∃ k : ℕ, stop = k ∧ i < k) := by
  refine loop_ok (I := fun j => i ≤ j) (fun j => input.length - j) ?_ (Nat.le_refl i) (by omega)
  intro j hj
  cases hc : input.bytes[j]? with
  | none => exact Or.inl ⟨LineEnd.insideLiteral,rfl,Or.inl (by decide)⟩
  | some c =>
    have hlt : j < input.length := (List.getElem?_eq_some_iff.mp hc).1
    dsimp only
    by_cases hend : isLineEnd c = true
    · exact Or.inl ⟨_,by rw [if_pos hend],Or.inl (by decide)⟩
    · rw [if_neg hend]
      by_cases hq : c = quote
      · exact Or.inl ⟨(j : ℤ) + 1,by rw [if_pos hq],Or.inr ⟨j + 1,by omega,by omega⟩⟩
      · rw [if_neg hq]
        by_cases hb : c = '\\'.toNat
        · exact Or.inr ⟨_,by rw [if_pos hb],by omega,by omega⟩
        · exact Or.inr ⟨_,by rw [if_neg hb],by omega,by omega⟩

theorem holeEndOnLine_ok (input : Text) (i : ℕ) : ∃ stop, holeEndOnLine input i = .ok stop := by
  refine loop_ends (I := fun _ => True) (fun s => input.length - s.1) ?_ trivial (by dsimp only; omega)
  rintro ⟨j,depth⟩ -
  cases hc : input.bytes[j]? with
  | none => exact Or.inl ⟨LineEnd.holeOpen,by simp only [hc]⟩
  | some c =>
    have hlt : j < input.length := (List.getElem?_eq_some_iff.mp hc).1
    simp only [hc]
    split
    · exact Or.inl ⟨_,rfl⟩
    · split
      · exact Or.inl ⟨_,rfl⟩
      · split
        · obtain ⟨stop,hs,hcase⟩ := literalEndOnLine_ok input (j + 1) c
          rw [hs,ok_bind]
          split
          · exact Or.inl ⟨_,rfl⟩
          · obtain ⟨k,rfl,hk⟩ := hcase.resolve_left ‹_›
            exact Or.inr ⟨_,rfl,trivial,by rw [Int.toNat_natCast]; dsimp only; omega⟩
        · split
          · exact Or.inr ⟨_,rfl,trivial,by dsimp only; omega⟩
          · split
            · split
              · exact Or.inl ⟨_,rfl⟩
              · exact Or.inr ⟨_,rfl,trivial,by dsimp only; omega⟩
            · exact Or.inr ⟨_,rfl,trivial,by dsimp only; omega⟩

namespace Lexer
variable {s s₀ s₁ : Lexer}

/-! ### Escapes -/

/-- What an escape did that reported nothing: it ended the source, or was a whole one. -/
def Quiet (input : Text) (s s' : Lexer) : Prop :=
  s'.diagnostics.length = s.diagnostics.length →
    s'.position = input.length ∨ Content ((input.bytes.take s'.position).drop s.position)

theorem report_not_quiet (message : List ℕ) (i j : ℕ) (h : s₁.diagnostics = s.diagnostics) :
    Quiet input s (s₁.report message i j) := by
  intro hn
  simp [report,h] at hn

theorem advance_diagnostics (input : Text) (s : Lexer) : (s.advance input).diagnostics = s.diagnostics := by
  unfold advance; split <;> rfl

theorem slice_two {c d : ℕ} (hc : input.bytes[i]? = some c) (hd : input.bytes[i + 1]? = some d) :
    (input.bytes.take (i + 2)).drop i = [c,d] := by
  rw [List.drop_take,drop_of_byte hc,drop_of_byte hd,Nat.add_sub_cancel_left]
  rfl

theorem hexDigits_ok {c : ℕ} (hc : input.bytes[i]? = some c) (hu : input.bytes[i + 1]? = some 'u'.toNat)
    (hcs : c = '\\'.toNat) (hs : s.position = i + 2)
    (h : isHexDigit (s.peek input 0) = true ∧ isHexDigit (s.peek input 1) = true ∧
      isHexDigit (s.peek input 2) = true ∧ isHexDigit (s.peek input 3) = true) :
    (∀ k < 4, s.peek input k ≠ 0 ∧ s.peek input k < 0x80) ∧
      Content ((input.bytes.take (i + 6)).drop i) := by
  have hclass : ∀ k, isHexDigit (s.peek input k) = true →
      s.peek input k ≠ 0 ∧ s.peek input k < 0x80 := fun k hk =>
    ⟨fun h0 => by rw [h0] at hk; exact absurd hk (by decide),isHexDigit_ascii hk⟩
  have hbyte : ∀ k, isHexDigit (s.peek input k) = true →
      input.bytes[i + 2 + k]? = some (s.peek input k) := fun k hk => by
    have := peek_byte (s := s) (k := k) rfl (hclass k hk).1
    rwa [hs] at this
  obtain ⟨h0,h1,h2,h3⟩ := h
  refine ⟨fun k hk => ?_,?_⟩
  · rcases (by omega : k = 0 ∨ k = 1 ∨ k = 2 ∨ k = 3) with rfl | rfl | rfl | rfl
    · exact hclass 0 h0
    · exact hclass 1 h1
    · exact hclass 2 h2
    · exact hclass 3 h3
  · rw [List.drop_take,drop_of_byte hc,drop_of_byte hu,drop_of_byte (hbyte 0 h0),
      drop_of_byte (hbyte 1 h1),drop_of_byte (hbyte 2 h2),drop_of_byte (hbyte 3 h3),hcs,
      Nat.add_sub_cancel_left]
    exact .unicode h0 h1 h2 h3 .nil

theorem consumeEscape_ok (inString : Bool) (hc : s.peek input 0 = '\\'.toNat) :
    ∃ s', s.consumeEscape input inString = .ok s' ∧ Ahead input s s' ∧ s.position < s'.position ∧
      Boundary input.bytes s'.position ∧ Quiet input s s' := by
  have hbyte : input.bytes[s.position]? = some '\\'.toNat := peek_byte hc (by decide)
  have hstart : Boundary input.bytes s.position := boundary_of_ascii hbyte (by decide)
  obtain ⟨hpos,hbd⟩ := advance_ascii hbyte (by decide)
  have ha := advance_ahead input s
  have hdiag := advance_diagnostics input s
  unfold consumeEscape
  dsimp only
  split
  · rename_i hend
    have hle := ha.stays (Nat.le_of_lt (List.getElem?_eq_some_iff.mp hbyte).1)
    have := atEnd_eq_true.mp hend
    exact ⟨_,rfl,ha,by omega,hbd,fun _ => Or.inl (by omega)⟩
  · rename_i hend
    have hlt := atEnd_eq_false.mp (Bool.eq_false_iff.mpr hend)
    have hesc := peek_zero_byte hlt
    rw [hpos] at hesc
    have ha2 := ha.trans (advance_ahead input (s.advance input))
    have hpos2 : ((s.advance input).advance input).position = s.position + 2 := by
      rw [advance_position hlt,hpos]
    split
    · rename_i hsimple
      refine ⟨_,rfl,ha2,by omega,?_,fun _ => Or.inr ?_⟩
      · exact (advance_ascii (peek_zero_byte hlt) (isSimpleEscape_ascii hsimple).1).2
      · rw [hpos2,slice_two hbyte hesc]
        exact .simple hsimple .nil
    · split
      · rename_i hu
        have hu8 : Boundary input.bytes ((s.advance input).advance input).position :=
          (advance_ascii (peek_zero_byte hlt) (by rw [hu]; decide)).2
        split
        · rename_i hhex
          have hub : input.bytes[s.position + 1]? = some 'u'.toNat := by rw [hesc,hu]
          obtain ⟨h4,hcontent⟩ := hexDigits_ok hbyte hub rfl hpos2 hhex
          obtain ⟨hst,hp6⟩ := advanceBy_steps h4
          rw [hpos2] at hp6
          refine ⟨_,rfl,ha2.trans hst.toAhead,?_,hst.boundary hu8,fun _ => Or.inr ?_⟩
          · exact Nat.lt_of_lt_of_le (by omega) hst.le
          · exact hp6 ▸ hcontent
        · obtain ⟨u,hsub,-⟩ := Text.substring_ok hstart hu8 (by omega)
          rw [hsub,ok_bind]
          refine ⟨_,rfl,ha2.trans (report_ahead _ _ _ _),by rw [report_position]; omega,hu8,?_⟩
          exact report_not_quiet _ _ _ ((advance_diagnostics input _).trans hdiag)
      · -- the whole character after the backslash is taken
        have hb1 : Boundary input.bytes (s.position + 1) := hpos ▸ hbd
        obtain ⟨w,hw,⟨t,ht⟩,hn⟩ := input.valid.next hb1 (by rw [← hpos]; exact hlt)
        obtain ⟨a,r,rfl,-,hr⟩ := hw.shape
        rw [drop_of_byte hesc,List.cons_append] at ht
        obtain ⟨rfl,hrt⟩ := List.cons.inj ht
        have htail : r.takeWhile isContinuationByte = r :=
          List.takeWhile_eq_self_iff.mpr fun b hb => isContinuationByte_iff.mpr (hr b hb)
        have hlen := utf8SequenceLength_char hw
        have htaken : ((input.bytes.drop (s.position + 2)).take
            (utf8SequenceLength (peek input (advance input s) 0) - 1)).takeWhile isContinuationByte = r := by
          rw [← hrt,hlen,List.length_cons,Nat.add_sub_cancel,List.take_left,htail]
        rw [hpos2,htaken]
        rw [List.length_cons] at hn
        have hend : s.position + 2 + r.length = s.position + 1 + (r.length + 1) := by omega
        have hb2 : Boundary input.bytes (s.position + 2 + r.length) := hend ▸ hn
        have ha3 := ha2.trans (move_ahead input ((s.advance input).advance input) (n := r.length)
          fun _ => by rw [hpos2]; exact hb2.1)
        rw [hpos2] at ha3
        obtain ⟨u,hu,-⟩ := Text.substring_ok hstart hb2 (by omega)
        obtain ⟨v,hv,-⟩ := Text.substring_ok hb1 hb2 (by omega)
        simp only [hu,hv,ok_bind]
        have hquiet : ((s.advance input).advance input).diagnostics = s.diagnostics :=
          (advance_diagnostics input _).trans hdiag
        split
        · exact ⟨_,rfl,ha3.trans (report_ahead _ _ _ _),by rw [report_position]; dsimp only; omega,hb2,
            report_not_quiet _ _ _ hquiet⟩
        · exact ⟨_,rfl,ha3.trans (report_ahead _ _ _ _),by rw [report_position]; dsimp only; omega,hb2,
            report_not_quiet _ _ _ hquiet⟩

/-! ### Strings -/

theorem stringLoop_ok (hs : s.position ≤ input.length) : ∃ r, s.stringLoop input = .ok r ∧
    (Ahead input s r.1 ∧ Boundary input.bytes r.1.position) := by
  refine loop_ok (I := fun s' => Ahead input s s') (fun s => input.length - s.position) ?_
    (Ahead.refl input s) (by omega)
  intro s' ha
  by_cases hend : s'.atEnd input = true
  · exact Or.inl ⟨(s',.line),by rw [if_pos hend],ha,atEnd_boundary hend (ha.stays hs)⟩
  · rw [if_neg hend]
    have hlt := atEnd_eq_false.mp (Bool.eq_false_iff.mpr hend)
    have hbyte := peek_zero_byte hlt
    have hadv := ha.trans (advance_ahead input s')
    have hpos := advance_position hlt
    dsimp only
    by_cases hq : s'.peek input 0 = '"'.toNat
    · rw [if_pos hq]
      exact Or.inl ⟨_,rfl,hadv,(advance_ascii hbyte (by rw [hq]; decide)).2⟩
    · rw [if_neg hq]
      by_cases ho : s'.peek input 0 = '{'.toNat
      · rw [if_pos ho]
        obtain ⟨stop,hstop⟩ := holeEndOnLine_ok input (s'.position + 1)
        rw [hstop,ok_bind]
        by_cases hin : stop = LineEnd.insideLiteral
        · have hrep := (ha.trans (report_ahead s' braceMessage s'.position (s'.position + 1))).trans
            (advance_ahead input _)
          refine Or.inr ⟨_,by rw [if_pos hin],hrep,?_⟩
          rw [advance_position (by rw [report_position]; exact hlt),report_position]
          omega
        · exact Or.inl ⟨_,by rw [if_neg hin],hadv,(advance_ascii hbyte (by rw [ho]; decide)).2⟩
      · rw [if_neg ho]
        by_cases hl : isLineEnd (s'.peek input 0) = true
        · rw [if_pos hl]
          exact Or.inl ⟨_,rfl,ha,boundary_of_ascii hbyte (isLineEnd_ascii hl)⟩
        · rw [if_neg hl]
          by_cases hb : s'.peek input 0 = '\\'.toNat
          · obtain ⟨s₁,h1,ha1,hlt1,-⟩ := consumeEscape_ok true hb
            rw [if_pos hb,h1,ok_bind]
            exact Or.inr ⟨s₁,rfl,ha.trans ha1,by omega⟩
          · rw [if_neg hb]
            exact Or.inr ⟨_,rfl,hadv,by omega⟩

theorem pushHole_ok (value : ℤ) (hs : HolesOk s) : ∃ s', s.pushHole value = .ok s' ∧ HolesOk s' ∧
    s'.position = s.position ∧ s'.pieces = s.pieces := by
  unfold HolesOk at hs
  unfold pushHole
  by_cases hc : s.holeDepthCount = s.holeDepthStack.length
  · refine ⟨_,if_pos hc,?_,rfl,rfl⟩
    simp only [HolesOk,List.length_append,List.length_singleton]
    omega
  · refine ⟨_,(if_neg hc).trans (if_pos (by omega)),?_,rfl,rfl⟩
    simp only [HolesOk,List.length_set]
    omega

/-- A piece of a string, whatever it leaves on the stack of holes. -/
theorem emit_scans_holes (s₂ : Lexer) (h : Ahead input s s₁) (hp : s₂.position = s₁.position)
    (hpieces : s₂.pieces = s₁.pieces) (hs : HolesOk s₂) (hlt : s.position < s₁.position)
    (hb : Boundary input.bytes s₁.position) {kind : SyntaxKind} (hk : kind ≠ .endOfFile) :
    Scans input s (s₂.emit kind s.position) where
  pieces := ⟨kind,hk,by simp only [emit,hpieces,h.pieces]⟩
  lt := by rw [emit_position,hp]; exact hlt
  boundary := by rw [emit_position,hp]; exact hb
  holes := hs

theorem lexStringBody_scans (hs : HolesOk s₀) (ha : Ahead input s₀ s) (hlt : s₀.position < s.position)
    (hle : s.position ≤ input.length) (atStart : Bool) :
    ∃ s', s.lexStringBody input s₀.position atStart = .ok s' ∧ Scans input s₀ s' := by
  obtain ⟨⟨s₁,ended⟩,h1,ha1,hb1⟩ := stringLoop_ok hle
  dsimp only at ha1 hb1
  have hall := ha.trans ha1
  have hlt1 : s₀.position < s₁.position := Nat.lt_of_lt_of_le hlt ha1.le
  simp only [lexStringBody,h1,ok_bind]
  -- the report of a string cut by its line changes neither position nor pieces
  obtain ⟨s₂,hs₂,ha2,hp2⟩ : ∃ s₂, s₂ = (if ended = .line then
      s₁.report (utf8 ("This string has no closing '\"' on its line. A string ends on the line it "
        ++ "starts on. Add '\"' where the text ends.")) s₀.position s₁.position else s₁) ∧
      Ahead input s₀ s₂ ∧ s₂.position = s₁.position := by
    refine ⟨_,rfl,?_,?_⟩
    · split
      · exact hall.trans (report_ahead _ _ _ _)
      · exact hall
    · split <;> rfl
  rw [← hs₂]
  rw [← hp2] at hb1 hlt1
  split
  · exact ⟨_,rfl,emit_scans ha2 hs hlt1 hb1 (by decide)⟩
  · split
    · obtain ⟨s₃,h3,hh3,hp3,hq3⟩ := pushHole_ok 0 (ha2.holes hs)
      rw [h3,ok_bind]
      exact ⟨_,rfl,emit_scans_holes s₃ ha2 hp3 hq3 hh3 hlt1 hb1 (by decide)⟩
    · split
      · exact ⟨_,rfl,emit_scans ha2 hs hlt1 hb1 (by decide)⟩
      · have hk : SyntaxKind.interpolatedStringEnd ≠ .endOfFile := by decide
        refine ⟨_,rfl,?_⟩
        split
        · exact emit_scans ha2 hs hlt1 hb1 hk
        · have hpop : HolesOk s₂.popHole := by
            have := ha2.holes hs
            simp only [HolesOk,popHole] at this ⊢
            omega
          exact emit_scans_holes s₂.popHole ha2 rfl rfl hpop hlt1 hb1 hk

theorem lexString_scans (hs : HolesOk s) (hlt : s.position < input.length) :
    ∃ s', s.lexString input s.position = .ok s' ∧ Scans input s s' := by
  have hpos := advance_position hlt
  exact lexStringBody_scans hs (advance_ahead input s) (by omega) (by omega) true

/-! ### Character literals -/

/-- The text of a literal grows with the bytes that are scanned. -/
theorem slice_append {i j k : ℕ} (hij : i ≤ j) (hjk : j ≤ k) :
    (input.bytes.take k).drop i = (input.bytes.take j).drop i ++ (input.bytes.take k).drop j := by
  rw [List.drop_take,List.drop_take,List.drop_take]
  have hk : k - i = (j - i) + (k - j) := by omega
  have hj : input.bytes.drop j = (input.bytes.drop i).drop (j - i) := by
    rw [List.drop_drop,Nat.add_sub_cancel' hij]
  rw [hk,List.take_add,hj]

theorem slice_one (h : input.bytes[i]? = some b) : (input.bytes.take (i + 1)).drop i = [b] := by
  rw [List.drop_take,drop_of_byte h,Nat.add_sub_cancel_left]
  rfl

structure Scanned (input : Text) (s s' : Lexer) : Prop extends Ahead input s s' where
  content : s'.diagnostics.length = s.diagnostics.length →
    s'.position = input.length ∨ Content ((input.bytes.take s'.position).drop s.position)

theorem Scanned.content_of_lt {s' : Lexer} (h : Scanned input s s') (hlt : s'.position < input.length)
    (hd : s'.diagnostics.length = s.diagnostics.length) :
    Content ((input.bytes.take s'.position).drop s.position) :=
  (h.content hd).resolve_left (by omega)

theorem characterLoop_ok (hs : s.position ≤ input.length) : ∃ r, s.characterLoop input = .ok r ∧
    (Ahead input s r.1 ∧ Boundary input.bytes r.1.position ∧ (r.2 = true →
      s.position < r.1.position ∧ input.bytes[r.1.position - 1]? = some '\''.toNat ∧
      (r.1.diagnostics.length = s.diagnostics.length →
        Content ((input.bytes.take (r.1.position - 1)).drop s.position)))) := by
  have hstart : Scanned input s s :=
    ⟨Ahead.refl input s,fun _ => Or.inr (by
      rw [List.drop_eq_nil_of_le (by rw [List.length_take]; omega)]; exact .nil)⟩
  refine loop_ok (I := fun s' => Scanned input s s') (fun s => input.length - s.position) ?_
    hstart (by omega)
  intro s' ha
  by_cases hend : s'.atEnd input = true
  · refine Or.inl ⟨(s',false),by rw [if_pos hend],ha.toAhead,atEnd_boundary hend (ha.stays hs),?_⟩
    intro h; cases h
  · rw [if_neg hend]
    have hlt := atEnd_eq_false.mp (Bool.eq_false_iff.mpr hend)
    have hbyte := peek_zero_byte hlt
    have hadv := ha.toAhead.trans (advance_ahead input s')
    have hpos := advance_position hlt
    have hle := ha.le
    dsimp only
    by_cases hq : s'.peek input 0 = '\''.toNat
    · rw [if_pos hq]
      have hsub : (s'.advance input).position - 1 = s'.position := by omega
      refine Or.inl ⟨_,rfl,hadv,(advance_ascii hbyte (by rw [hq]; decide)).2,fun _ => ⟨?_,?_,?_⟩⟩
      · dsimp only; omega
      · dsimp only
        rw [hsub,hbyte,hq]
      · dsimp only
        rw [hsub,advance_diagnostics]
        exact ha.content_of_lt hlt
    · rw [if_neg hq]
      by_cases hl : isLineEnd (s'.peek input 0) = true
      · rw [if_pos hl]
        refine Or.inl ⟨(s',false),rfl,ha.toAhead,boundary_of_ascii hbyte (isLineEnd_ascii hl),?_⟩
        intro h; cases h
      · rw [if_neg hl]
        by_cases hb : s'.peek input 0 = '\\'.toNat
        · obtain ⟨s₁,h1,ha1,hlt1,-,hquiet⟩ := consumeEscape_ok false hb
          rw [if_pos hb,h1,ok_bind]
          refine Or.inr ⟨s₁,rfl,⟨ha.toAhead.trans ha1,fun hd => ?_⟩,by omega⟩
          have hm := ha.reports
          have hm1 := ha1.reports
          rcases hquiet (by omega) with he | hc
          · exact Or.inl he
          · rw [slice_append hle ha1.le]
            exact Or.inr ((ha.content_of_lt hlt (by omega)).append hc)
        · rw [if_neg hb]
          refine Or.inr ⟨_,rfl,⟨hadv,fun hd => Or.inr ?_⟩,by omega⟩
          rw [advance_diagnostics] at hd
          rw [hpos,slice_append hle (Nat.le_succ _),slice_one hbyte]
          exact (ha.content_of_lt hlt hd).append (.plain hb .nil)

theorem lexCharacter_scans (hs : HolesOk s) (hc : s.peek input 0 = '\''.toNat) :
    ∃ s', s.lexCharacter input s.position = .ok s' ∧ Scans input s s' := by
  have hbyte : input.bytes[s.position]? = some '\''.toNat := peek_byte hc (by decide)
  have hstart : Boundary input.bytes s.position := boundary_of_ascii hbyte (by decide)
  have hlt : s.position < input.length := (List.getElem?_eq_some_iff.mp hbyte).1
  have hpos := advance_position hlt
  obtain ⟨⟨s₁,closed⟩,h1,ha1,hb1,hclosed⟩ := characterLoop_ok (show (s.advance input).position ≤ input.length by omega)
  dsimp only at ha1 hb1 hclosed
  have ha := (advance_ahead input s).trans ha1
  have hlt1 : s.position < s₁.position := Nat.lt_of_lt_of_le (by omega) ha1.le
  have hk : SyntaxKind.charLiteral ≠ .endOfFile := by decide
  have hreport : ∀ message, Scans input s ((s₁.report message s.position s₁.position).emit .charLiteral s.position) :=
    fun message => emit_scans (ha.trans (report_ahead _ _ _ _)) hs hlt1 hb1 hk
  simp only [lexCharacter,h1,ok_bind]
  cases closed with
  | false => exact ⟨_,rfl,hreport _⟩
  | true =>
    obtain ⟨hlt2,hquote,hcontent⟩ := hclosed rfl
    rw [advance_diagnostics] at hcontent
    rw [if_neg (by simp)]
    by_cases hd : s₁.diagnostics.length = s.diagnostics.length
    · obtain ⟨literal,hsub,hbytes⟩ := Text.substring_ok hstart hb1 (Nat.le_of_lt hlt1)
      have hliteral : literal.bytes = '\''.toNat ::
          ((input.bytes.take (s₁.position - 1)).drop (s.advance input).position ++ ['\''.toNat]) := by
        have hlast := slice_one hquote
        rw [show s₁.position - 1 + 1 = s₁.position by omega] at hlast
        rw [hbytes,slice_append (j := s.position + 1) (by omega) (by omega),slice_one hbyte,
          slice_append (i := s.position + 1) (j := s₁.position - 1) (by omega) (by omega),hlast,hpos]
        rfl
      obtain ⟨count,hcount,-⟩ := characterLiteralLength_ok literal
      obtain ⟨refusal,hrefusal⟩ := characterLengthRefusal_ok hliteral (hcontent hd)
      simp only [hd,if_true,hsub,hcount,hrefusal,ok_bind]
      split
      · exact ⟨_,rfl,hreport _⟩
      · exact ⟨_,rfl,emit_scans ha hs hlt1 hb1 hk⟩
    · rw [if_neg hd]
      exact ⟨_,rfl,emit_scans ha hs hlt1 hb1 hk⟩

end Lexer
end Ens.Lex
