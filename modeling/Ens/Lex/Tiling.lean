import Ens.Lex.StringSpec

/-! # The pieces tile the source

Every round of the scan adds one piece from where it began to where it stopped, so the pieces
follow one another from the start of the source to its end. Attaching the trivia to the tokens
loses and repeats no piece.
-/
set_option linter.all false
namespace Ens.Lex
open Loop Utf8

variable {input : Text} {i j k : ℕ}

/-- Pieces that follow one another from a place to another, each of some length and each at
the start of a character. -/
def Tiles (bs : List ℕ) : List RawToken → ℕ → ℕ → Prop
  | [],i,j => i = j ∧ Boundary bs i
  | p :: pieces,i,j => p.offset = i ∧ 0 < p.length ∧ Boundary bs i ∧ Tiles bs pieces (i + p.length) j

/-- The pieces of a whole source: they tile it, and the end of file stands at its end and
nowhere else. -/
def Tiling (input : Text) (pieces : List RawToken) : Prop :=
  ∃ body, pieces = body ++ [⟨.endOfFile,input.length,0⟩] ∧ Tiles input.bytes body 0 input.length ∧
    ∀ p ∈ body, p.kind ≠ .endOfFile

theorem Tiles.snoc {bs : List ℕ} {pieces : List RawToken} (h : Tiles bs pieces i j) {kind : SyntaxKind}
    (hlt : j < k) (hk : Boundary bs k) : Tiles bs (pieces ++ [⟨kind,j,k - j⟩]) i k := by
  induction pieces generalizing i with
  | nil =>
    obtain ⟨rfl,hi⟩ := h
    exact ⟨rfl,Nat.sub_pos_of_lt hlt,hi,by dsimp only; omega,by dsimp only; rwa [Nat.add_sub_cancel' (Nat.le_of_lt hlt)]⟩
  | cons p pieces ih =>
    obtain ⟨ho,hp,hb,hrest⟩ := h
    exact ⟨ho,hp,hb,ih hrest⟩

namespace Lexer
variable {s : Lexer}

/-! ### Rounds of the scan -/

theorem scanToken_scans (hs : HolesOk s) (hb : Boundary input.bytes s.position)
    (hlt : s.position < input.length) :
    ∃ s', s.scanToken input s.position (s.peek input 0) = .ok s' ∧ Scans input s s' := by
  have hbyte := peek_zero_byte hlt
  unfold scanToken
  split
  · rename_i h; exact ⟨_,rfl,lexWhitespace_scans hs hb hbyte h⟩
  · rename_i hspace
    split
    · rename_i h; exact ⟨_,rfl,lexNewline_scans hs hbyte h⟩
    · rename_i hend
      split
      · rename_i hslash
        split
        · rename_i h; exact ⟨_,rfl,lexLineComment_scans hs hbyte (peek_byte h (by decide))⟩
        · split
          · rename_i h; exact ⟨_,rfl,lexBlockComment_scans hs hbyte (peek_byte h (by decide))⟩
          · exact lexOperator_scans hs hb hlt (Or.inr (by rw [hslash]; decide))
      · split
        · rename_i h; exact lexNumber_scans hs hb h
        · rename_i hdigit
          split
          · rename_i h; exact lexIdentifierOrKeyword_scans hs hb h
          · rename_i hident
            split
            · exact lexString_scans hs hlt
            · rename_i hquote
              split
              · rename_i h; exact lexCharacter_scans hs h
              · rename_i hsingle
                refine lexOperator_scans hs hb hlt (Or.inl ⟨?_,?_,?_,?_,hquote,hsingle⟩)
                · simpa using hspace
                · simpa using hend
                · simpa using hdigit
                · simpa using hident

theorem holeTop_ok (hs : HolesOk s) (hn : s.holeStackEmpty = false) : ∃ depth, s.holeTop = .ok depth := by
  have hc : s.holeDepthCount ≠ 0 := by simpa [holeStackEmpty] using hn
  unfold HolesOk at hs
  have hlt : s.holeDepthCount - 1 < s.holeDepthStack.length := by omega
  exact ⟨s.holeDepthStack[s.holeDepthCount - 1],by simp [holeTop,hc,hlt]⟩

theorem setHoleTop_ok (hs : HolesOk s) (hn : s.holeStackEmpty = false) (value : ℤ) :
    ∃ s', s.setHoleTop value = .ok s' ∧ HolesOk s' ∧ s'.position = s.position ∧ s'.pieces = s.pieces := by
  have hc : s.holeDepthCount ≠ 0 := by simpa [holeStackEmpty] using hn
  unfold HolesOk at hs
  refine ⟨_,if_pos ⟨by omega,hs⟩,?_,rfl,rfl⟩
  simpa [HolesOk] using hs

theorem Scans.of_holes {s₁ s' : Lexer} (h : Scans input s₁ s') (hp : s₁.position = s.position)
    (hq : s₁.pieces = s.pieces) : Scans input s s' where
  pieces := by rw [← hp,← hq]; exact h.pieces
  lt := hp ▸ h.lt
  boundary := h.boundary
  holes := h.holes

theorem scanPiece_scans (hs : HolesOk s) (hb : Boundary input.bytes s.position)
    (hlt : s.position < input.length) : ∃ s', s.scanPiece input = .ok s' ∧ Scans input s s' := by
  have hdeeper : s.holeStackEmpty = false → ∀ value, ∃ s', (do
      let s₁ ← s.setHoleTop value
      s₁.scanToken input s.position (s.peek input 0)) = .ok s' ∧ Scans input s s' := by
    intro hn value
    obtain ⟨s₁,h1,hh1,hp1,hq1⟩ := setHoleTop_ok hs hn value
    rw [h1,ok_bind]
    have hpeek : s.peek input 0 = s₁.peek input 0 := by rw [peek,peek,hp1]
    rw [hpeek,← hp1]
    obtain ⟨s',h2,hsc⟩ := scanToken_scans hh1 (hp1 ▸ hb) (hp1 ▸ hlt)
    exact ⟨s',h2,hsc.of_holes hp1 hq1⟩
  unfold scanPiece
  dsimp only
  cases hn : s.holeStackEmpty with
  | true => exact scanToken_scans hs hb hlt
  | false =>
    obtain ⟨depth,hd⟩ := holeTop_ok hs hn
    simp only [Bool.false_eq_true,if_false,hd,ok_bind]
    split
    · have hpos := advance_position hlt
      exact lexStringBody_scans hs (advance_ahead input s) (by omega) (by omega) false
    · split
      · exact hdeeper hn _
      · split
        · exact hdeeper hn _
        · exact scanToken_scans hs hb hlt

structure Tiled (input : Text) (s : Lexer) : Prop where
  tiles : Tiles input.bytes s.pieces 0 s.position
  kinds : ∀ p ∈ s.pieces, p.kind ≠ .endOfFile
  boundary : Boundary input.bytes s.position
  holes : HolesOk s

theorem Scans.tiled {s' : Lexer} (h : Scans input s s') (ht : Tiled input s) : Tiled input s' := by
  obtain ⟨kind,hk,hp⟩ := h.pieces
  refine ⟨hp ▸ ht.tiles.snoc h.lt h.boundary,fun p hm => ?_,h.boundary,h.holes⟩
  rw [hp] at hm
  rcases List.mem_append.mp hm with hm | hm
  · exact ht.kinds p hm
  · rw [List.mem_singleton.mp hm]; exact hk

theorem tiled_start (input : Text) : Tiled input {} :=
  ⟨⟨rfl,boundary_zero input.valid⟩,by simp,boundary_zero input.valid,Nat.le_refl 0⟩

theorem scanByteOrderMark_tiled (input : Text) : Tiled input (({} : Lexer).scanByteOrderMark input) := by
  unfold scanByteOrderMark
  split
  · exact tiled_start input
  · rename_i hc
    simp only [not_or,not_not] at hc
    obtain ⟨h0,h1,h2⟩ := hc
    have hb0 : input.bytes[0]? = some 0xEF := peek_byte h0 (by decide)
    have hb1 : input.bytes[1]? = some 0xBB := peek_byte h1 (by decide)
    have hb2 : input.bytes[2]? = some 0xBF := peek_byte h2 (by decide)
    have hlen : 2 < input.length := (List.getElem?_eq_some_iff.mp hb2).1
    obtain ⟨w,hw,⟨t,ht⟩,hn⟩ := input.valid.next (boundary_zero input.valid)
      (List.getElem?_eq_some_iff.mp hb0).1
    obtain ⟨a,r,rfl,-,-⟩ := hw.shape
    rw [drop_of_byte hb0,List.cons_append] at ht
    obtain ⟨rfl,-⟩ := List.cons.inj ht
    rw [← utf8SequenceLength_char hw] at hn
    have h3 : ∀ k < 3, (({} : Lexer).advanceBy input k).position = k := by
      intro k hk
      rcases (by omega : k = 0 ∨ k = 1 ∨ k = 2) with rfl | rfl | rfl
      · rfl
      · exact advance_position (show 0 < input.length by omega)
      · exact advance_two hb0 hb1
    have hlt2 : (({} : Lexer).advanceBy input 2).position < input.length := by rw [h3 2 (by omega)]; exact hlen
    have hpos := advance_position hlt2
    rw [h3 2 (by omega)] at hpos
    have ha := ((advance_ahead input {}).trans (advance_ahead input _)).trans (advance_ahead input _)
    have hsc : Scans input {} ((((({} : Lexer).advance input).advance input).advance input).emit .whitespace 0) :=
      emit_scans ha (Nat.le_refl 0) (Nat.lt_of_lt_of_eq (Nat.succ_pos 2) hpos.symm) (hpos.symm ▸ hn) (by decide)
    exact hsc.tiled (tiled_start input)

/-- The scan of a whole source ends, and its pieces tile the source. -/
theorem scanAll_tiling (input : Text) : ∃ s, ({} : Lexer).scanAll input = .ok s ∧ Tiling input s.pieces := by
  obtain ⟨s,hs,ht,hend⟩ : ∃ s, loop .endless (fun s =>
      if s.atEnd input then .ok (.done s)
      else do
        let s ← s.scanPiece input
        .ok (.next s)) (input.length + 1) (({} : Lexer).scanByteOrderMark input) = .ok s ∧
      (Tiled input s ∧ s.atEnd input = true) := by
    refine loop_ok (I := Tiled input) (fun s => input.length - s.position) ?_
      (scanByteOrderMark_tiled input) (by omega)
    intro s ht
    by_cases hend : s.atEnd input = true
    · exact Or.inl ⟨s,by rw [if_pos hend],ht,hend⟩
    · have hlt := atEnd_eq_false.mp (Bool.eq_false_iff.mpr hend)
      obtain ⟨s',h1,hsc⟩ := scanPiece_scans ht.holes ht.boundary hlt
      have := hsc.lt
      exact Or.inr ⟨s',by rw [if_neg hend,h1,ok_bind],hsc.tiled ht,by omega⟩
  have hpos : s.position = input.length :=
    Nat.le_antisymm ht.boundary.1 (atEnd_eq_true.mp hend)
  refine ⟨s.emit .endOfFile s.position,by rw [scanAll,hs,ok_bind],s.pieces,?_,hpos ▸ ht.tiles,ht.kinds⟩
  rw [emit,Nat.sub_self,hpos]

end Lexer

/-! ### Trivia -/

def LexedToken.pieces (t : LexedToken) : List RawToken :=
  t.leading ++ ⟨t.kind,t.offset,t.length⟩ :: t.trailing

theorem trailingTrivia_prefix (pieces : List RawToken) : trailingTrivia pieces <+: pieces := by
  induction pieces with
  | nil => exact List.prefix_rfl
  | cons p pieces ih =>
    unfold trailingTrivia
    split
    · split
      · exact ⟨pieces,rfl⟩
      · exact List.cons_prefix_cons.mpr ⟨rfl,ih⟩
    · exact List.nil_prefix

theorem trailingTrivia_trivia (pieces : List RawToken) :
    ∀ p ∈ trailingTrivia pieces, isTriviaPiece p.kind = true := by
  induction pieces with
  | nil => simp [trailingTrivia]
  | cons p pieces ih =>
    intro q hq
    unfold trailingTrivia at hq
    split at hq
    · rename_i hp
      split at hq
      · rw [List.mem_singleton.mp hq]; exact hp
      · rcases List.mem_cons.mp hq with rfl | hq
        · exact hp
        · exact ih q hq
    · cases hq

theorem endOfFile_not_trivia : isTriviaPiece .endOfFile = false := by decide

/-- Trivia at the front of pieces that end with the end of file leaves that at their end. -/
theorem drop_trivia {body trivia : List RawToken} {last : RawToken} (hlast : last.kind = .endOfFile)
    (hp : trivia <+: body ++ [last]) (ht : ∀ p ∈ trivia, isTriviaPiece p.kind = true) :
    ∃ rest, body = trivia ++ rest := by
  rcases List.prefix_concat_iff.mp hp with he | hp
  · have := ht last (by rw [he]; simp)
    rw [hlast,endOfFile_not_trivia] at this
    cases this
  · obtain ⟨rest,hr⟩ := hp
    exact ⟨rest,hr.symm⟩

theorem attachTrivia_pieces {body : List RawToken} {last : RawToken} (hlast : last.kind = .endOfFile)
    (hbody : ∀ p ∈ body, p.kind ≠ .endOfFile) :
    ∃ tokens, attachTrivia (body ++ [last]) = .ok tokens ∧
      tokens.flatMap LexedToken.pieces = body ++ [last] := by
  refine loop_ok (I := fun s => s.2.flatMap LexedToken.pieces ++ s.1 = body ++ [last] ∧
      ∃ rest, s.1 = rest ++ [last] ∧ ∀ p ∈ rest, p.kind ≠ .endOfFile)
    (fun s => s.1.length) ?_ ⟨rfl,body,rfl,hbody⟩ (by simp)
  rintro ⟨pieces,tokens⟩ ⟨hall,rest,hrest,hkinds⟩
  dsimp only at hall hrest
  subst hrest
  have hsplit := List.takeWhile_append_dropWhile (p := fun p => isTriviaPiece p.kind) (l := rest ++ [last])
  have htrivia : ∀ p ∈ (rest ++ [last]).takeWhile (fun p => isTriviaPiece p.kind),
      isTriviaPiece p.kind = true := fun p hp => by simpa using List.mem_takeWhile_imp hp
  have hprefix := List.takeWhile_prefix (l := rest ++ [last]) fun p => isTriviaPiece p.kind
  simp only [List.append_eq_nil_iff,List.cons_ne_nil,and_false,if_false]
  generalize (rest ++ [last]).takeWhile (fun p => isTriviaPiece p.kind) = leading at *
  obtain ⟨after,rfl⟩ := drop_trivia hlast hprefix htrivia
  rw [List.append_cancel_left (hsplit.trans (List.append_assoc leading after [last]))]
  cases after with
  | nil =>
    refine Or.inl ⟨_,if_pos hlast,?_⟩
    rw [List.flatMap_append,← hall]
    simp [LexedToken.pieces,trailingTrivia]
  | cons token after =>
    have hk : token.kind ≠ .endOfFile := hkinds token (by simp)
    have htp := trailingTrivia_prefix (after ++ [last])
    have htt := trailingTrivia_trivia (after ++ [last])
    refine Or.inr ⟨_,if_neg hk,?_⟩
    generalize trailingTrivia (after ++ [last]) = trailing at *
    obtain ⟨others,rfl⟩ := drop_trivia hlast htp htt
    have hdrop : ((trailing ++ others).append [last]).drop trailing.length = others ++ [last] := by
      rw [List.append_eq,List.append_assoc,List.drop_left]
    rw [hdrop]
    refine ⟨⟨?_,others,rfl,fun p hp => hkinds p (by simp [hp])⟩,?_⟩
    · rw [← hall]
      simp [LexedToken.pieces,List.flatMap_append]
    · simp only [List.length_append,List.length_cons,List.length_nil]
      omega

/-- Lexing ends for every source. Its pieces tile the source, and the pieces of its tokens with
their trivia are the same pieces in the same order. -/
theorem lex_tiles (input : Text) : ∃ r, lex input = .ok r ∧ Tiling input r.rawPieces ∧
    r.significantTokens.flatMap LexedToken.pieces = r.rawPieces := by
  obtain ⟨s,hs,body,hpieces,htiles,hkinds⟩ := Lexer.scanAll_tiling input
  obtain ⟨tokens,ht,hflat⟩ := attachTrivia_pieces
    (show (⟨.endOfFile,input.length,0⟩ : RawToken).kind = .endOfFile from rfl) hkinds
  rw [← hpieces] at ht hflat
  exact ⟨_,by rw [lex,hs,ok_bind,ht,ok_bind],⟨body,hpieces,htiles,hkinds⟩,hflat⟩

end Ens.Lex
