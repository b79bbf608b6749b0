import Ens.Lex.Tiling

/-! # Pieces and the holes they open and close

Which piece a scan makes, and what it does to the holes the lexer is in: the start of an interpolated string
opens one, its end closes one, and braces change the depth of the innermost one.
-/
set_option linter.all false
namespace Ens.Lex
open Loop Utf8

def SyntaxKind.isPlain (kind : SyntaxKind) : Bool :=
  decide (kind ≠ .openBrace) && decide (kind ≠ .closeBrace) && decide (kind ≠ .interpolatedStringStart) &&
    decide (kind ≠ .interpolatedStringMiddle) && decide (kind ≠ .interpolatedStringEnd)

namespace Lexer
variable {input : Text} {s s₁ s' : Lexer} {l : List ℤ} {d : ℤ} {c : ℕ} {kind : SyntaxKind}

/-! ### The holes -/

def holes (s : Lexer) : List ℤ := s.holeDepthStack.take s.holeDepthCount

theorem holes_length (hs : HolesOk s) : s.holes.length = s.holeDepthCount := by
  unfold HolesOk at hs
  rw [holes,List.length_take]
  omega

theorem holeStackEmpty_iff (hs : HolesOk s) : s.holeStackEmpty = true ↔ s.holes = [] := by
  rw [holeStackEmpty,decide_eq_true_iff,← List.length_eq_zero_iff,holes_length hs]

theorem holes_getLast (hs : HolesOk s) (hl : s.holes = l ++ [d]) : s.holeDepthCount = l.length + 1 ∧
    s.holeDepthStack[l.length]? = some d ∧ s.holeDepthStack.take l.length = l := by
  have hlen := holes_length hs
  rw [hl,List.length_append,List.length_singleton] at hlen
  have hget : s.holes[l.length]? = some d := by rw [hl]; simp
  have htake := congrArg (List.take l.length) hl
  rw [holes,List.take_take,Nat.min_eq_left (by omega),List.take_left] at htake
  rw [holes,List.getElem?_take_of_lt (by omega)] at hget
  exact ⟨hlen.symm,hget,htake⟩

theorem holeTop_eq (hs : HolesOk s) (hl : s.holes = l ++ [d]) : s.holeTop = .ok d := by
  obtain ⟨hc,hget,-⟩ := holes_getLast hs hl
  rw [holeTop,if_neg (by omega),hc,Nat.add_sub_cancel,hget]

theorem setHoleTop_holes (value : ℤ) (hs : HolesOk s) (hl : s.holes = l ++ [d]) : ∃ s', s.setHoleTop value = .ok s' ∧ HolesOk s' ∧
    s'.holes = l ++ [value] ∧ s'.position = s.position ∧ s'.pieces = s.pieces ∧ s'.diagnostics = s.diagnostics := by
  obtain ⟨hc,hget,htake⟩ := holes_getLast hs hl
  unfold HolesOk at hs
  refine ⟨_,if_pos ⟨by omega,hs⟩,?_,?_,rfl,rfl,rfl⟩
  · unfold HolesOk
    rw [List.length_set]
    exact hs
  · rw [holes,hc,Nat.add_sub_cancel,List.take_add_one,List.getElem?_set_self (by omega),List.take_set_of_le (Nat.le_refl _),htake]
    rfl

theorem pushHole_holes (value : ℤ) (hs : HolesOk s) : ∃ s', s.pushHole value = .ok s' ∧ HolesOk s' ∧ s'.holes = s.holes ++ [value] ∧
    s'.position = s.position ∧ s'.pieces = s.pieces ∧ s'.diagnostics = s.diagnostics := by
  unfold HolesOk at hs
  unfold pushHole
  by_cases hc : s.holeDepthCount = s.holeDepthStack.length
  · refine ⟨_,if_pos hc,?_,?_,rfl,rfl,rfl⟩
    · simp only [HolesOk,List.length_append,List.length_singleton]
      omega
    · rw [holes,holes,hc,List.take_of_length_le (by simp),List.take_length]
  · refine ⟨_,(if_neg hc).trans (if_pos (by omega)),?_,?_,rfl,rfl,rfl⟩
    · simp only [HolesOk,List.length_set]
      omega
    · rw [holes,holes,List.take_add_one,List.getElem?_set_self (by omega),List.take_set_of_le (Nat.le_refl _)]
      rfl

theorem popHole_holes (hs : HolesOk s) (hl : s.holes = l ++ [d]) : HolesOk s.popHole ∧ s.popHole.holes = l := by
  obtain ⟨hc,-,htake⟩ := holes_getLast hs hl
  unfold HolesOk at hs ⊢
  rw [holes,popHole]
  dsimp only
  rw [hc,Nat.add_sub_cancel]
  exact ⟨by omega,htake⟩

theorem Ahead.holes_eq (h : Ahead input s s₁) : s₁.holes = s.holes := by
  rw [Lexer.holes,Lexer.holes,h.stack,h.count]

/-! ### The piece a scan makes -/

/-- What a scan that begins with a byte leaves, by the kind of its piece. A hole is entered only where the rest of its
line does not end inside a literal. -/
inductive Makes (input : Text) (s s' : Lexer) (c : ℕ) : SyntaxKind → Prop
  | plain {kind : SyntaxKind} (hk : kind.isPlain = true) (hc : c ≠ '{'.toNat ∧ c ≠ '}'.toNat) (hh : s'.holes = s.holes) : Makes input s s' c kind
  | openBrace (hc : c = '{'.toNat) (hh : s'.holes = s.holes) : Makes input s s' c .openBrace
  | closeBrace (hc : c = '}'.toNat) (hh : s'.holes = s.holes) : Makes input s s' c .closeBrace
  | start (hc : c = '"'.toNat) (hh : s'.holes = s.holes ++ [0]) (he : holeEndOnLine input s'.position ≠ .ok LineEnd.insideLiteral) :
      Makes input s s' c .interpolatedStringStart

structure Adds (s s' : Lexer) (kind : SyntaxKind) : Prop where
  pieces : s'.pieces = s.pieces ++ [⟨kind,s.position,s'.position - s.position⟩]
  reports : s.diagnostics.length ≤ s'.diagnostics.length

theorem emit_adds (ha : Ahead input s s₁) (kind : SyntaxKind) : Adds s (s₁.emit kind s.position) kind :=
  ⟨by simp only [emit,ha.pieces],ha.reports⟩

theorem emit_plain (kind : SyntaxKind) (hs : HolesOk s) (ha : Ahead input s s₁) (hk : kind.isPlain = true)
    (hc : c ≠ '{'.toNat ∧ c ≠ '}'.toNat) : HolesOk (s₁.emit kind s.position) ∧
      ∃ k, Adds s (s₁.emit kind s.position) k ∧ Makes input s (s₁.emit kind s.position) c k :=
  ⟨ha.holes hs,kind,emit_adds ha kind,.plain hk hc ha.holes_eq⟩

theorem operators_plain : ∀ row ∈ operators, row.2.isPlain = true ∧ ∀ b ∈ row.1.head?, b ≠ '{' ∧ b ≠ '}' := by
  simp [operators,SyntaxKind.isPlain]

theorem singleCharacters_plain : ∀ row ∈ singleCharacters, row.1 ≠ '{' → row.1 ≠ '}' → row.2.isPlain = true := by decide

theorem keywords_plain : ∀ row ∈ keywords, row.2.isPlain = true := by decide

theorem stringLoop_hole {r : Lexer × BodyEnd} (hok : s.stringLoop input = .ok r) (hr : r.2 = .hole) :
    holeEndOnLine input r.1.position ≠ .ok LineEnd.insideLiteral := by
  refine loop_post (Q := fun r => r.2 = .hole → holeEndOnLine input r.1.position ≠ .ok LineEnd.insideLiteral) ?_ hok hr
  intro a r hb hr
  dsimp only at hb
  split at hb
  · cases hb
    cases hr
  · rename_i hend
    have hlt := atEnd_eq_false.mp (Bool.eq_false_iff.mpr hend)
    split at hb
    · cases hb
      cases hr
    · split at hb
      · obtain ⟨stop,hstop,hb⟩ := bind_ok hb
        split at hb
        · cases hb
        · rename_i hne
          cases hb
          dsimp only
          rw [advance_position hlt,hstop]
          exact fun heq => hne (Except.ok.inj heq)
      · split at hb
        · cases hb
          cases hr
        · split at hb
          · obtain ⟨a₁,-,hb⟩ := bind_ok hb
            cases hb
          · cases hb

/-- The body of a string makes one piece, which may open a hole, or go on to another one, or close one. -/
theorem lexStringBody_makes (ha : Ahead input s s₁) (hs : HolesOk s) (hle : s₁.position ≤ input.length) {atStart : Bool}
    (hok : s₁.lexStringBody input s.position atStart = .ok s') : HolesOk s' ∧ match atStart with
      | true => Adds s s' .stringLiteral ∧ s'.holes = s.holes ∨ Adds s s' .interpolatedStringStart ∧ s'.holes = s.holes ++ [0] ∧
          holeEndOnLine input s'.position ≠ .ok LineEnd.insideLiteral
      | false => Adds s s' .interpolatedStringMiddle ∧ s'.holes = s.holes ∧
          holeEndOnLine input s'.position ≠ .ok LineEnd.insideLiteral ∨
        Adds s s' .interpolatedStringEnd ∧ ∀ l d, s.holes = l ++ [d] → s'.holes = l := by
  obtain ⟨⟨s₂,ended⟩,h₂,ha₂,-⟩ := stringLoop_ok hle
  have hhole := stringLoop_hole h₂
  dsimp only at ha₂ hhole
  unfold lexStringBody at hok
  rw [h₂,ok_bind] at hok
  dsimp only at hok
  obtain ⟨s₃,h₃,ha₃,hp₃⟩ : ∃ s₃, s₃ = (if ended = .line then
      s₂.report (utf8 ("This string has no closing '\"' on its line. A string ends on the line it "
        ++ "starts on. Add '\"' where the text ends.")) s.position s₂.position else s₂) ∧ Ahead input s s₃ ∧
      s₃.position = s₂.position := by
    refine ⟨_,rfl,?_,?_⟩
    · split
      · exact (ha.trans ha₂).trans (report_ahead ..)
      · exact ha.trans ha₂
    · split <;> rfl
  rw [← h₃] at hok
  cases atStart with
  | true =>
    by_cases he : ended = .hole
    · obtain ⟨s₄,h₄,hok₄,hh₄,hp₄,hq₄,hd₄⟩ := pushHole_holes 0 (ha₃.holes hs)
      rw [if_neg (by simp [he]),if_pos rfl,h₄,ok_bind] at hok
      cases hok
      refine ⟨hok₄,Or.inr ⟨?_,hh₄.trans (congrArg (· ++ [0]) ha₃.holes_eq),?_⟩⟩
      · exact ⟨by simp only [emit,hq₄,ha₃.pieces],by rw [emit,hd₄]; exact ha₃.reports⟩
      · rw [emit_position,hp₄,hp₃]
        exact hhole he
    · rw [if_pos ⟨rfl,he⟩] at hok
      cases hok
      exact ⟨ha₃.holes hs,Or.inl ⟨emit_adds ha₃ _,ha₃.holes_eq⟩⟩
  | false =>
    rw [if_neg (by simp),if_neg Bool.false_ne_true] at hok
    by_cases he : ended = .hole
    · rw [if_pos he] at hok
      cases hok
      refine ⟨ha₃.holes hs,Or.inl ⟨emit_adds ha₃ _,ha₃.holes_eq,?_⟩⟩
      rw [emit_position,hp₃]
      exact hhole he
    · rw [if_neg he] at hok
      cases hok
      have hh₃ := ha₃.holes hs
      split
      · rename_i hempty
        refine ⟨hh₃,Or.inr ⟨emit_adds ha₃ _,fun l d hl => ?_⟩⟩
        rw [holeStackEmpty_iff hh₃,ha₃.holes_eq,hl] at hempty
        simp at hempty
      · refine ⟨?_,Or.inr ⟨?_,fun l d hl => (popHole_holes hh₃ (ha₃.holes_eq.trans hl)).2⟩⟩
        · unfold HolesOk at hh₃ ⊢
          exact Nat.le_trans (Nat.sub_le ..) hh₃
        · exact ⟨by simp only [emit,popHole,ha₃.pieces],ha₃.reports⟩

theorem lexOperator_makes (hs : HolesOk s) (hb : Boundary input.bytes s.position)
    (hok : s.lexOperator input s.position = .ok s') :
    HolesOk s' ∧ ∃ kind, Adds s s' kind ∧ Makes input s s' (s.peek input 0) kind := by
  unfold lexOperator at hok
  split at hok
  · rename_i operator kind hf
    cases hok
    have hrow := List.mem_of_find?_eq_some hf
    obtain ⟨hne,-,hascii⟩ := operators_ascii _ hrow
    have hst := List.find?_some hf
    have ha := (advanceBy_steps (startsWith_peek hst hascii)).1.toAhead
    obtain ⟨hplain,hfirst⟩ := operators_plain _ hrow
    obtain ⟨x,rest,rfl⟩ := List.exists_cons_of_ne_nil hne
    have hpeek : s.peek input 0 = x.toNat := by
      have he := congrArg (fun l => l[0]?) (of_decide_eq_true hst)
      simpa using he
    obtain ⟨hx,hx'⟩ := hfirst x rfl
    refine emit_plain _ hs ha hplain ?_
    rw [hpeek]
    exact ⟨fun h => hx (Char.toNat_inj.mp h),fun h => hx' (Char.toNat_inj.mp h)⟩
  · split at hok
    · rename_i single hk
      cases hok
      have ha : Ahead input s (s.advanceBy input 1) := advance_ahead input s
      refine ⟨ha.holes hs,single,emit_adds ha _,?_⟩
      obtain ⟨row,hf,hrow⟩ := Option.map_eq_some_iff.mp hk
      have hc : row.1.toNat = s.peek input 0 := by simpa using List.find?_some hf
      have hmem := List.mem_of_find?_eq_some hf
      by_cases ho : s.peek input 0 = '{'.toNat
      · rw [ho] at hk ⊢
        cases (show singleCharacterKind '{'.toNat = some .openBrace from rfl).symm.trans hk
        exact .openBrace rfl ha.holes_eq
      · by_cases hcl : s.peek input 0 = '}'.toNat
        · rw [hcl] at hk ⊢
          cases (show singleCharacterKind '}'.toNat = some .closeBrace from rfl).symm.trans hk
          exact .closeBrace rfl ha.holes_eq
        · refine .plain (hrow ▸ singleCharacters_plain row hmem ?_ ?_) ⟨ho,hcl⟩ ha.holes_eq
          · rintro heq
            exact ho (by rw [← hc,heq])
          · rintro heq
            exact hcl (by rw [← hc,heq])
    · rename_i hk
      unfold lexInvalidCharacter at hok
      obtain ⟨runEnd,hrun,hle,hbr,-⟩ := refusedRunEnd_ok hb
      obtain ⟨s₁,h₁,hs₁,hp₁⟩ := advanceTo_ok (s := s) hbr hle
      obtain ⟨s₂,h₂,hs₂,-⟩ := reportRefused_ok (s := s₁) hb (hs₁.boundary hb) hs₁.le
      rw [hrun,ok_bind,h₁,ok_bind,h₂,ok_bind] at hok
      cases hok
      have ha := hs₁.toAhead.trans hs₂.toAhead
      refine emit_plain .invalid hs ha (by decide) ⟨fun h => ?_,fun h => ?_⟩ <;> (rw [h] at hk; cases hk)

theorem class_brace {p : ℕ → Bool} (ho : p '{'.toNat = false) (hc : p '}'.toNat = false) (hp : p c = true) : c ≠ '{'.toNat ∧ c ≠ '}'.toNat := by
  constructor <;> rintro rfl
  · rw [ho] at hp; cases hp
  · rw [hc] at hp; cases hp

theorem lexBlockComment_ahead {d : ℕ} (hc : input.bytes[s.position]? = some c) (hd : input.bytes[s.position + 1]? = some d) :
    ∃ s₁, Ahead input s s₁ ∧ s.lexBlockComment input s.position = s₁.emit .blockComment s.position := by
  have hpos := advance_two hc hd
  have hlen : s.position + 1 < input.length := (List.getElem?_eq_some_iff.mp hd).1
  have hle := (blockCommentRest_spec (input.bytes.drop (s.position + 2))).1
  rw [List.length_drop] at hle
  have hl : input.length = input.bytes.length := rfl
  have ha := ((advance_ahead input s).trans (advance_ahead input _)).trans
    (move_ahead input ((s.advance input).advance input)
      (n := (blockCommentRest (input.bytes.drop ((s.advance input).advance input).position)).1) (by rw [hpos]; omega))
  unfold lexBlockComment
  dsimp only
  split
  · exact ⟨_,ha,rfl⟩
  · exact ⟨_,ha.trans (report_ahead _ _ _ _),rfl⟩

theorem scanToken_makes (hs : HolesOk s) (hb : Boundary input.bytes s.position) (hlt : s.position < input.length)
    (hok : s.scanToken input s.position (s.peek input 0) = .ok s') :
    HolesOk s' ∧ ∃ kind, Adds s s' kind ∧ Makes input s s' (s.peek input 0) kind := by
  have hbyte := peek_zero_byte hlt
  unfold scanToken at hok
  split at hok
  · rename_i hc
    cases hok
    have ha := advanceWhile_ahead input isSpace s
    exact emit_plain _ hs ha (by decide) (class_brace (by decide) (by decide) hc)
  · split at hok
    · rename_i hc
      cases hok
      have hbrace : s.peek input 0 ≠ '{'.toNat ∧ s.peek input 0 ≠ '}'.toNat := class_brace (by decide) (by decide) hc
      unfold lexNewline
      dsimp only
      split
      · have ha := (advance_ahead input s).trans (advance_ahead input _)
        exact emit_plain _ hs ha (by decide) hbrace
      · have ha := advance_ahead input s
        exact emit_plain _ hs ha (by decide) hbrace
    · split at hok
      · rename_i hslash
        have hbrace : s.peek input 0 ≠ '{'.toNat ∧ s.peek input 0 ≠ '}'.toNat := by rw [hslash]; decide
        split at hok
        · cases hok
          have ha := ((advance_ahead input s).trans (advance_ahead input _)).trans (advanceWhile_ahead input (fun c => !isLineEnd c) _)
          exact emit_plain _ hs ha (by decide) hbrace
        · split at hok
          · rename_i hstar
            cases hok
            obtain ⟨s₁,ha,heq⟩ := lexBlockComment_ahead hbyte (peek_byte hstar (by decide))
            rw [heq]
            exact emit_plain _ hs ha (by decide) hbrace
          · exact lexOperator_makes hs hb hok
      · split at hok
        · rename_i hc
          have hbrace : s.peek input 0 ≠ '{'.toNat ∧ s.peek input 0 ≠ '}'.toNat := class_brace (by decide) (by decide) hc
          obtain ⟨s₁,isFloat,h₁,hst,-⟩ := lexDigits_ok hb hc
          unfold lexNumber at hok
          rw [h₁,ok_bind] at hok
          have ha := hst.toAhead
          have ha' := ha.trans (advance_ahead input s₁)
          dsimp only at hok
          split at hok
          · cases hok
            exact emit_plain _ hs ha' (by decide) hbrace
          · split at hok
            · cases hok
              exact emit_plain _ hs ha' (by decide) hbrace
            · split at hok
              · cases hok
                exact emit_plain _ hs ha' (by split <;> decide) hbrace
              · cases hok
                exact emit_plain _ hs ha (by split <;> decide) hbrace
        · split at hok
          · rename_i hc
            have hbrace : s.peek input 0 ≠ '{'.toNat ∧ s.peek input 0 ≠ '}'.toNat := class_brace (by decide) (by decide) hc
            obtain ⟨s₁,h₁,hst,-⟩ := identifierLoop_ok hb
            unfold lexIdentifierOrKeyword at hok
            rw [h₁,ok_bind] at hok
            obtain ⟨text,-,hok⟩ := bind_ok hok
            split at hok
            · cases hok
              exact emit_plain _ hs hst.toAhead (by decide) hbrace
            · rename_i keyword hk
              cases hok
              obtain ⟨row,hf,rfl⟩ := Option.map_eq_some_iff.mp hk
              exact emit_plain _ hs hst.toAhead (keywords_plain row (List.mem_of_find?_eq_some hf)) hbrace
          · split at hok
            · rename_i hc
              have hpos := advance_position hlt
              obtain ⟨hh,hm⟩ := lexStringBody_makes (advance_ahead input s) hs (by omega) hok
              rcases hm with ⟨hadds,hsame⟩ | ⟨hadds,hpush,he⟩
              · exact ⟨hh,_,hadds,.plain (by decide) (by rw [hc]; decide) hsame⟩
              · exact ⟨hh,_,hadds,.start hc hpush he⟩
            · split at hok
              · rename_i hc
                have hbrace : s.peek input 0 ≠ '{'.toNat ∧ s.peek input 0 ≠ '}'.toNat := by rw [hc]; decide
                have hpos := advance_position hlt
                obtain ⟨⟨s₁,closed⟩,h₁,ha₁,-,-⟩ := characterLoop_ok (show (s.advance input).position ≤ input.length by omega)
                have ha := (advance_ahead input s).trans ha₁
                unfold lexCharacter at hok
                rw [h₁,ok_bind] at hok
                dsimp only at hok ha
                split at hok
                · cases hok
                  exact emit_plain _ hs (ha.trans (report_ahead _ _ _ _)) (by decide) hbrace
                · split at hok
                  · obtain ⟨literal,-,hok⟩ := bind_ok hok
                    obtain ⟨count,-,hok⟩ := bind_ok hok
                    split at hok
                    · obtain ⟨refusal,-,hok⟩ := bind_ok hok
                      cases hok
                      exact emit_plain _ hs (ha.trans (report_ahead _ _ _ _)) (by decide) hbrace
                    · cases hok
                      exact emit_plain _ hs ha (by decide) hbrace
                  · cases hok
                    exact emit_plain _ hs ha (by decide) hbrace
              · exact lexOperator_makes hs hb hok

theorem Makes.seen (hm : Makes input s s' c kind) (hk : kind = .interpolatedStringStart ∨ kind = .interpolatedStringMiddle) :
    holeEndOnLine input s'.position ≠ .ok LineEnd.insideLiteral := by
  cases hm with
  | plain hplain => rcases hk with rfl | rfl <;> cases hplain
  | openBrace => rcases hk with hk | hk <;> cases hk
  | closeBrace => rcases hk with hk | hk <;> cases hk
  | start _ _ he => exact he

/-- A piece that ends with the brace of a hole ends where the rest of the line does not end inside a literal. -/
theorem scanPiece_seen (hs : HolesOk s) (hb : Boundary input.bytes s.position) (hlt : s.position < input.length)
    (hok : s.scanPiece input = .ok s') : ∃ kind, Adds s s' kind ∧
      (kind = .interpolatedStringStart ∨ kind = .interpolatedStringMiddle → holeEndOnLine input s'.position ≠ .ok LineEnd.insideLiteral) := by
  have htoken {a : Lexer} (ha : HolesOk a) (hp : a.position = s.position) (hq : a.pieces = s.pieces)
      (hd : a.diagnostics = s.diagnostics) (hok : a.scanToken input s.position (s.peek input 0) = .ok s') : ∃ kind, Adds s s' kind ∧
        (kind = .interpolatedStringStart ∨ kind = .interpolatedStringMiddle → holeEndOnLine input s'.position ≠ .ok LineEnd.insideLiteral) := by
    have hpeek : s.peek input 0 = a.peek input 0 := by rw [peek,peek,hp]
    rw [hpeek,← hp] at hok
    obtain ⟨-,kind,hadds,hm⟩ := scanToken_makes ha (hp ▸ hb) (hp ▸ hlt) hok
    exact ⟨kind,⟨by rw [hadds.pieces,hp,hq],by rw [← hd]; exact hadds.reports⟩,hm.seen⟩
  unfold scanPiece at hok
  dsimp only at hok
  split at hok
  · exact htoken hs rfl rfl rfl hok
  · rename_i hne
    obtain ⟨l,d,hl⟩ : ∃ l d, s.holes = l ++ [d] := by
      have hnil : s.holes ≠ [] := fun h => hne ((holeStackEmpty_iff hs).mpr h)
      exact ⟨_,_,(List.dropLast_append_getLast hnil).symm⟩
    rw [holeTop_eq hs hl,ok_bind] at hok
    have hset {value : ℤ} (hok : (s.setHoleTop value >>= fun s₁ => s₁.scanToken input s.position (s.peek input 0)) = .ok s') :
        ∃ kind, Adds s s' kind ∧ (kind = .interpolatedStringStart ∨ kind = .interpolatedStringMiddle →
          holeEndOnLine input s'.position ≠ .ok LineEnd.insideLiteral) := by
      obtain ⟨s₁,h₁,hs₁,-,hp,hq,hd⟩ := setHoleTop_holes value hs hl
      rw [h₁,ok_bind] at hok
      exact htoken hs₁ hp hq hd hok
    split at hok
    · have hpos := advance_position hlt
      obtain ⟨-,hm⟩ := lexStringBody_makes (advance_ahead input s) hs (by omega) hok
      rcases hm with ⟨hadds,-,he⟩ | ⟨hadds,-⟩
      · exact ⟨_,hadds,fun _ => he⟩
      · refine ⟨_,hadds,fun hk => ?_⟩
        rcases hk with hk | hk <;> cases hk
    · split at hok
      · exact hset hok
      · split at hok
        · exact hset hok
        · exact htoken hs rfl rfl rfl hok

end Lexer
end Ens.Lex
