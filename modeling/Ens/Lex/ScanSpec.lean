import Ens.Lex.CharacterSpec
import Ens.Lex.Lexer

/-! # What each scan does

A scan moves the position on and leaves the pieces before it as they were. It stops where a
character begins: after bytes that are characters of their own, before one, or at the end.
-/
namespace Ens.Lex
open Loop Utf8

namespace Lexer

structure Ahead (input : Text) (s s' : Lexer) : Prop where
  pieces : s'.pieces = s.pieces
  stack : s'.holeDepthStack = s.holeDepthStack
  count : s'.holeDepthCount = s.holeDepthCount
  le : s.position ≤ s'.position
  stays : s.position ≤ input.length → s'.position ≤ input.length
  reports : s.diagnostics.length ≤ s'.diagnostics.length

/-- The stack of holes is as long as its logical size. -/
def HolesOk (s : Lexer) : Prop := s.holeDepthCount ≤ s.holeDepthStack.length

structure Scans (input : Text) (s s' : Lexer) : Prop where
  pieces : ∃ kind, kind ≠ .endOfFile ∧
    s'.pieces = s.pieces ++ [⟨kind,s.position,s'.position - s.position⟩]
  lt : s.position < s'.position
  boundary : Boundary input.bytes s'.position
  holes : HolesOk s'

variable {input : Text} {s s₁ s₂ : Lexer} {b k start : ℕ}

theorem Ahead.refl (input : Text) (s : Lexer) : Ahead input s s :=
  ⟨rfl,rfl,rfl,Nat.le_refl _,fun h => h,Nat.le_refl _⟩

theorem Ahead.trans (h : Ahead input s s₁) (h' : Ahead input s₁ s₂) : Ahead input s s₂ where
  pieces := h'.pieces.trans h.pieces
  stack := h'.stack.trans h.stack
  count := h'.count.trans h.count
  le := Nat.le_trans h.le h'.le
  stays hs := h'.stays (h.stays hs)
  reports := Nat.le_trans h.reports h'.reports

theorem Ahead.holes (h : Ahead input s s₁) (hs : HolesOk s) : HolesOk s₁ := by
  unfold HolesOk
  rw [h.stack,h.count]
  exact hs

theorem advance_ahead (input : Text) (s : Lexer) : Ahead input s (s.advance input) := by
  unfold advance
  split
  · exact ⟨rfl,rfl,rfl,Nat.le_succ _,fun _ => by dsimp only; omega,Nat.le_refl _⟩
  · exact Ahead.refl _ _

theorem report_ahead (s : Lexer) (message : List ℕ) (i j : ℕ) :
    Ahead input s (s.report message i j) :=
  ⟨rfl,rfl,rfl,Nat.le_refl _,fun h => h,by simp [report]⟩

@[simp] theorem report_position (s : Lexer) (message : List ℕ) (i j : ℕ) :
    (s.report message i j).position = s.position := rfl

@[simp] theorem emit_position (s : Lexer) (kind : SyntaxKind) (i : ℕ) :
    (s.emit kind i).position = s.position := rfl

theorem move_ahead (input : Text) (s : Lexer) {n : ℕ}
    (h : s.position ≤ input.length → s.position + n ≤ input.length) :
    Ahead input s { s with position := s.position + n } :=
  ⟨rfl,rfl,rfl,Nat.le_add_right _ _,h,Nat.le_refl _⟩

theorem emit_scans (h : Ahead input s s₁) (hs : HolesOk s) (hlt : s.position < s₁.position)
    (hb : Boundary input.bytes s₁.position) {kind : SyntaxKind} (hk : kind ≠ .endOfFile) :
    Scans input s (s₁.emit kind s.position) where
  pieces := ⟨kind,hk,by simp only [emit,h.pieces]⟩
  lt := hlt
  boundary := hb
  holes := h.holes hs

/-! ### Bytes at the position -/

theorem byteAt_some (h : input.bytes[k]? = some b) : byteAt input k = b := by
  simp [byteAt,List.getD_eq_getElem?_getD,h]

theorem byte_of_byteAt (h : byteAt input k = b) (hb : b ≠ 0) : input.bytes[k]? = some b := by
  cases hx : input.bytes[k]? with
  | none =>
    have : byteAt input k = 0 := by simp [byteAt,List.getD_eq_getElem?_getD,hx]
    omega
  | some c => rw [byteAt_some hx] at h; rw [h]

theorem peek_byte (h : s.peek input k = b) (hb : b ≠ 0) : input.bytes[s.position + k]? = some b :=
  byte_of_byteAt h hb

theorem peek_zero_byte (hlt : s.position < input.length) :
    input.bytes[s.position]? = some (s.peek input 0) := by
  obtain ⟨b,hb⟩ := Text.exists_byte hlt
  rw [show s.peek input 0 = b from byteAt_some hb,hb]

theorem advance_position (h : s.position < input.length) : (s.advance input).position = s.position + 1 := by
  simp [advance,h]

/-- Past a byte that is a character of its own a character begins. -/
theorem advance_ascii (h : input.bytes[s.position]? = some b) (hb : b < 0x80) :
    (s.advance input).position = s.position + 1 ∧ Boundary input.bytes (s.advance input).position := by
  have hlt : s.position < input.length := (List.getElem?_eq_some_iff.mp h).1
  rw [advance_position hlt]
  exact ⟨rfl,input.valid.boundary_succ h hb⟩

theorem atEnd_eq_true : s.atEnd input = true ↔ input.length ≤ s.position := by simp [atEnd]

theorem atEnd_eq_false : s.atEnd input = false ↔ s.position < input.length := by simp [atEnd]

theorem atEnd_boundary (h : s.atEnd input = true) (hle : s.position ≤ input.length) :
    Boundary input.bytes s.position := by
  rw [show s.position = input.bytes.length from Nat.le_antisymm hle (atEnd_eq_true.mp h)]
  exact boundary_length _

/-! ### Loops that only advance -/

theorem advanceWhile_ahead (input : Text) (p : ℕ → Bool) (s : Lexer) :
    Ahead input s (s.advanceWhile input p) := by
  refine move_ahead input s fun h => ?_
  have := (List.takeWhile_sublist (l := input.bytes.drop s.position) p).length_le
  rw [List.length_drop] at this
  have hl : input.length = input.bytes.length := rfl
  omega

/-- A scan over bytes that are characters of their own stops at a boundary. -/
theorem advanceWhile_ascii {p : ℕ → Bool} (hp : ∀ b, p b = true → b < 0x80)
    (hs : Boundary input.bytes s.position) : Boundary input.bytes (s.advanceWhile input p).position :=
  input.valid.boundary_run hs (List.takeWhile_prefix p) fun _ hb => hp _ (List.mem_takeWhile_imp hb)

/-- A scan that stops only at such a byte or at the end stops at a boundary. -/
theorem advanceWhile_stop {p : ℕ → Bool} (hp : ∀ b, p b = false → b < 0x80)
    (hs : s.position ≤ input.length) : Boundary input.bytes (s.advanceWhile input p).position := by
  have hle := (advanceWhile_ahead input p s).stays hs
  rcases Nat.lt_or_eq_of_le hle with hlt | heq
  · obtain ⟨b,hb⟩ := Text.exists_byte hlt
    have hnext : (input.bytes.drop s.position)[((input.bytes.drop s.position).takeWhile p).length]? =
        some b := by
      rw [List.getElem?_drop]
      exact hb
    exact boundary_of_ascii hb (hp b (takeWhile_stop p hnext))
  · rw [heq]
    exact boundary_length _

theorem advanceWhile_lt {p : ℕ → Bool} (hb : input.bytes[s.position]? = some b) (hp : p b = true) :
    s.position < (s.advanceWhile input p).position := by
  obtain ⟨hlt,hget⟩ := List.getElem?_eq_some_iff.mp hb
  simp only [advanceWhile]
  rw [List.drop_eq_getElem_cons hlt,hget,List.takeWhile_cons_of_pos hp,List.length_cons]
  omega

theorem advanceWhile_bytes (p : ℕ → Bool) (s : Lexer) :
    (input.bytes.take (s.advanceWhile input p).position).drop s.position =
      (input.bytes.drop s.position).takeWhile p := by
  rw [List.drop_take]
  simp only [advanceWhile,Nat.add_sub_cancel_left]
  exact (List.prefix_iff_eq_take.mp (List.takeWhile_prefix p)).symm

/-! ### The classes of bytes -/

theorem isSpace_ascii (h : isSpace b = true) : b < 0x80 := by
  simp [isSpace] at h; omega

theorem isLineEnd_ascii (h : isLineEnd b = true) : b < 0x80 := by
  simp [isLineEnd] at h; omega

theorem isDigit_ascii (h : isDigit b = true) : b < 0x80 := by
  simp [isDigit] at h; omega

theorem isIdentifierContinue_ascii (h : isIdentifierContinue b = true) : b < 0x80 := by
  simp [isIdentifierContinue,isIdentifierStart,isAsciiLetter,isDigit] at h; omega

theorem orUnderscore_ascii {p : ℕ → Bool} (hp : ∀ b, p b = true → b < 0x80) (b : ℕ)
    (h : (p b || decide (b = '_'.toNat)) = true) : b < 0x80 := by
  rcases Bool.or_eq_true_iff.mp h with h | h
  · exact hp b h
  · have := of_decide_eq_true h
    simp only [Char.reduceToNat] at this; omega

/-! ### Trivia -/

theorem lexWhitespace_scans (hs : HolesOk s) (hb : Boundary input.bytes s.position)
    (hc : input.bytes[s.position]? = some b) (hspace : isSpace b = true) :
    Scans input s (s.lexWhitespace input s.position) :=
  emit_scans (advanceWhile_ahead input isSpace s) hs (advanceWhile_lt hc hspace)
    (advanceWhile_ascii (fun _ => isSpace_ascii) hb) (by decide)

theorem lexNewline_scans (hs : HolesOk s) (hc : input.bytes[s.position]? = some b)
    (hend : isLineEnd b = true) : Scans input s (s.lexNewline input s.position) := by
  have ha := advance_ahead input s
  obtain ⟨hpos,hbd⟩ := advance_ascii hc (isLineEnd_ascii hend)
  unfold lexNewline
  dsimp only
  split
  · rename_i hcr
    have hnl := peek_byte hcr.2 (by decide)
    obtain ⟨hpos',hbd'⟩ := advance_ascii hnl (by decide)
    exact emit_scans (ha.trans (advance_ahead input _)) hs (by omega) hbd' (by decide)
  · exact emit_scans ha hs (by omega) hbd (by decide)

theorem advance_two {c d : ℕ} (hc : input.bytes[s.position]? = some c)
    (hd : input.bytes[s.position + 1]? = some d) :
    ((s.advance input).advance input).position = s.position + 2 := by
  have hlc : s.position < input.length := (List.getElem?_eq_some_iff.mp hc).1
  have hld : s.position + 1 < input.length := (List.getElem?_eq_some_iff.mp hd).1
  have h1 := advance_position hlc
  rw [← h1] at hld
  have h2 := advance_position hld
  omega

theorem lexLineComment_scans (hs : HolesOk s) {c d : ℕ} (hc : input.bytes[s.position]? = some c)
    (hd : input.bytes[s.position + 1]? = some d) :
    Scans input s (s.lexLineComment input s.position) := by
  have ha := (advance_ahead input s).trans (advance_ahead input _)
  have hpos := advance_two hc hd
  have hlen : s.position + 1 < input.length := (List.getElem?_eq_some_iff.mp hd).1
  have hw := advanceWhile_ahead input (fun c => !isLineEnd c) ((s.advance input).advance input)
  refine emit_scans (ha.trans hw) hs ?_ (advanceWhile_stop ?_ ?_) (by decide)
  · have := hw.le; omega
  · intro b hb
    exact isLineEnd_ascii (by simpa using hb)
  · omega

theorem blockCommentRest_spec (l : List ℕ) : (blockCommentRest l).1 ≤ l.length ∧
    ((blockCommentRest l).2 = true → 2 ≤ (blockCommentRest l).1 ∧
      l[(blockCommentRest l).1 - 1]? = some '/'.toNat) ∧
    ((blockCommentRest l).2 = false → (blockCommentRest l).1 = l.length) := by
  induction l with
  | nil => simp [blockCommentRest]
  | cons c rest ih =>
    obtain ⟨h1,h2,h3⟩ := ih
    unfold blockCommentRest
    split
    · rename_i hc
      cases rest with
      | nil => simp at hc
      | cons d rest =>
        obtain rfl : d = '/'.toNat := by simpa using hc.2
        simp
    · refine ⟨by simpa using h1,fun h => ?_,fun h => by simpa using h3 h⟩
      obtain ⟨h4,h5⟩ := h2 h
      refine ⟨by dsimp only; omega,?_⟩
      obtain ⟨n,hn⟩ : ∃ n, (blockCommentRest rest).1 = n + 1 :=
        ⟨(blockCommentRest rest).1 - 1,by omega⟩
      rw [hn] at h5
      dsimp only
      rw [hn]
      simpa using h5

theorem lexBlockComment_scans (hs : HolesOk s) {c d : ℕ} (hc : input.bytes[s.position]? = some c)
    (hd : input.bytes[s.position + 1]? = some d) :
    Scans input s (s.lexBlockComment input s.position) := by
  have ha := (advance_ahead input s).trans (advance_ahead input _)
  have hpos := advance_two hc hd
  have hlen : s.position + 1 < input.length := (List.getElem?_eq_some_iff.mp hd).1
  have hl : input.length = input.bytes.length := rfl
  obtain ⟨h1,h2,h3⟩ := blockCommentRest_spec (input.bytes.drop (s.position + 2))
  rw [List.length_drop] at h1 h3
  have hm := move_ahead input ((s.advance input).advance input)
    (n := (blockCommentRest (input.bytes.drop (s.position + 2))).1) (by omega)
  have hbd : Boundary input.bytes (s.position + 2 +
      (blockCommentRest (input.bytes.drop (s.position + 2))).1) := by
    cases hcl : (blockCommentRest (input.bytes.drop (s.position + 2))).2 with
    | true =>
      obtain ⟨h4,h5⟩ := h2 hcl
      rw [List.getElem?_drop] at h5
      have := input.valid.boundary_succ h5 (by decide)
      rwa [show s.position + 2 + ((blockCommentRest (input.bytes.drop (s.position + 2))).1 - 1) + 1 =
        s.position + 2 + (blockCommentRest (input.bytes.drop (s.position + 2))).1 by omega] at this
    | false =>
      rw [h3 hcl,show s.position + 2 + (input.bytes.length - (s.position + 2)) = input.bytes.length by omega]
      exact boundary_length _
  unfold lexBlockComment
  dsimp only
  rw [hpos]
  split
  · exact emit_scans (ha.trans (by rw [hpos] at hm; exact hm)) hs (by dsimp only; omega) hbd (by decide)
  · refine emit_scans ((ha.trans (by rw [hpos] at hm; exact hm)).trans (report_ahead _ _ _ _)) hs
      (by rw [report_position]; dsimp only; omega) (by rw [report_position]; exact hbd) (by decide)

end Lexer
end Ens.Lex
