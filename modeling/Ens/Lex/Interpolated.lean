import Ens.Lex.Rounds
import Mathlib.Data.List.Infix

/-! # Interpolated strings

A string with holes is cut into one piece before the first hole, one between each two holes and one after the last,
with the pieces of each hole between them, exactly when no hole is taken for text. The scan that decides this pairs
quotes as if no literal had holes of its own.
-/
set_option linter.all false
namespace Ens.Lex
open Loop Utf8

variable {input : Text} {n c : ℕ} {rest : List ℕ}

/-! ### Text between holes -/

inductive Chunk : List ℕ → Prop
  | nil : Chunk []
  | plain {c : ℕ} {rest : List ℕ} (hc : c ≠ '"'.toNat ∧ c ≠ '{'.toNat ∧ c ≠ '\\'.toNat ∧ isLineEnd c = false) (h : Chunk rest) :
      Chunk (c :: rest)
  | simple {c : ℕ} {rest : List ℕ} (hc : isSimpleEscape c = true) (h : Chunk rest) : Chunk ('\\'.toNat :: c :: rest)
  | unicode {a b c d : ℕ} {rest : List ℕ} (ha : isHexDigit a = true) (hb : isHexDigit b = true) (hc : isHexDigit c = true)
      (hd : isHexDigit d = true) (h : Chunk rest) : Chunk ('\\'.toNat :: 'u'.toNat :: a :: b :: c :: d :: rest)

namespace Lexer
variable {s : Lexer}

theorem peek_drop {l : List ℕ} {k b : ℕ} (hd : input.bytes.drop s.position = l) (hk : l[k]? = some b) :
    s.peek input k = b ∧ s.position + k < input.length := by
  rw [← hd,List.getElem?_drop] at hk
  exact ⟨byteAt_some hk,(List.getElem?_eq_some_iff.mp hk).1⟩

theorem advance_moveTo (hlt : s.position < input.length) : s.advance input = s.moveTo (s.position + 1) := if_pos hlt

theorem drop_moveTo {l r : List ℕ} (hd : input.bytes.drop s.position = l ++ r) :
    input.bytes.drop (s.moveTo (s.position + l.length)).position = r := by
  rw [moveTo_position,← List.drop_drop,hd,List.drop_left]

theorem consumeEscape_simple {inString : Bool} (hd : input.bytes.drop s.position = '\\'.toNat :: c :: rest)
    (hc : isSimpleEscape c = true) : s.consumeEscape input inString = .ok (s.moveTo (s.position + 2)) := by
  obtain ⟨-,h0⟩ := peek_drop (k := 0) hd rfl
  obtain ⟨-,h1⟩ := peek_drop (k := 1) hd rfl
  have hd₁ : input.bytes.drop (s.moveTo (s.position + 1)).position = c :: rest := drop_moveTo (l := [_]) hd
  unfold consumeEscape
  dsimp only
  rw [advance_moveTo (by omega),atEnd_eq_false.mpr (show (s.moveTo (s.position + 1)).position < _ from h1),if_neg Bool.false_ne_true,
    (peek_drop (k := 0) hd₁ rfl).1,if_pos hc,advance_moveTo (s := s.moveTo (s.position + 1)) h1]
  rfl

theorem consumeEscape_unicode {inString : Bool} {x y z w : ℕ}
    (hd : input.bytes.drop s.position = '\\'.toNat :: 'u'.toNat :: x :: y :: z :: w :: rest) (hx : isHexDigit x = true)
    (hy : isHexDigit y = true) (hz : isHexDigit z = true) (hw : isHexDigit w = true) :
    s.consumeEscape input inString = .ok (s.moveTo (s.position + 6)) := by
  obtain ⟨-,h5⟩ := peek_drop (k := 5) hd rfl
  have hd₁ : input.bytes.drop (s.moveTo (s.position + 1)).position = 'u'.toNat :: x :: y :: z :: w :: rest := drop_moveTo (l := [_]) hd
  have hd₂ : input.bytes.drop (s.moveTo (s.position + 2)).position = x :: y :: z :: w :: rest := drop_moveTo (l := [_,_]) hd
  have hmove (k : ℕ) (hk : k < 6) : (s.moveTo (s.position + k)).advance input = s.moveTo (s.position + (k + 1)) :=
    advance_moveTo (s := s.moveTo (s.position + k)) (by rw [moveTo_position]; omega)
  unfold consumeEscape
  dsimp only
  rw [advance_moveTo (by omega),atEnd_eq_false.mpr (show (s.moveTo (s.position + 1)).position < _ by rw [moveTo_position]; omega),
    if_neg Bool.false_ne_true,(peek_drop (k := 0) hd₁ rfl).1,if_neg (by decide),if_pos rfl,hmove 1 (by omega),
    (peek_drop (k := 0) hd₂ rfl).1,(peek_drop (k := 1) hd₂ rfl).1,(peek_drop (k := 2) hd₂ rfl).1,(peek_drop (k := 3) hd₂ rfl).1,
    if_pos ⟨hx,hy,hz,hw⟩,hmove 2 (by omega),hmove 3 (by omega),hmove 4 (by omega),hmove 5 (by omega)]

/-- The loop over the text of a string passes a chunk and stops at the quote or the hole after it. -/
theorem stringLoop_chunk {chunk : List ℕ} {e : BodyEnd} (hchunk : Chunk chunk) (hd : input.bytes.drop s.position = chunk ++ c :: rest)
    (hend : c = '"'.toNat ∧ e = .closed ∨ c = '{'.toNat ∧ e = .hole ∧
      holeEndOnLine input (s.position + chunk.length + 1) ≠ .ok LineEnd.insideLiteral) :
    s.stringLoop input = .ok (s.moveTo (s.position + chunk.length + 1),e) := by
  rw [stringLoop_eq]
  suffices hrun : ∃ r, loop .endless (stringRound input) (input.length + 1) s = .ok r ∧ r = (s.moveTo (s.position + chunk.length + 1),e) by
    obtain ⟨r,hr,rfl⟩ := hrun
    exact hr
  refine loop_ok (I := fun a => ∃ todo, Chunk todo ∧ input.bytes.drop a.position = todo ++ c :: rest ∧ a = s.moveTo a.position ∧
    a.position + todo.length = s.position + chunk.length) (fun a => input.length - a.position) ?_ ⟨chunk,hchunk,hd,rfl,rfl⟩ (by omega)
  rintro a ⟨todo,htodo,hda,ha,hlen⟩
  have hround {b : ℕ} {l : List ℕ} (hl : input.bytes.drop a.position = b :: l) : a.position < input.length ∧ stringRound input a =
      (if b = '"'.toNat then .ok (.done (a.advance input,.closed))
      else if b = '{'.toNat then do
        let stop ← holeEndOnLine input (a.position + 1)
        if stop = LineEnd.insideLiteral then
          .ok (.next ((a.report braceMessage a.position (a.position + 1)).advance input))
        else .ok (.done (a.advance input,.hole))
      else if isLineEnd b then .ok (.done (a,.line))
      else if b = '\\'.toNat then do
        let s ← a.consumeEscape input true
        .ok (.next s)
      else .ok (.next (a.advance input))) := by
    obtain ⟨hp,hlt⟩ := peek_drop (k := 0) hl rfl
    refine ⟨hlt,?_⟩
    unfold stringRound
    rw [atEnd_eq_false.mpr hlt,if_neg Bool.false_ne_true,hp]
  -- what is left of the chunk after some of it
  have hnext {l todo : List ℕ} (htodo : Chunk todo) (hda : input.bytes.drop a.position = (l ++ todo) ++ c :: rest)
      (hlen : a.position + (l ++ todo).length = s.position + chunk.length) (hlt : a.position < input.length) (hne : 0 < l.length) :
      (∃ todo, Chunk todo ∧ input.bytes.drop (a.moveTo (a.position + l.length)).position = todo ++ c :: rest ∧
        a.moveTo (a.position + l.length) = s.moveTo (a.moveTo (a.position + l.length)).position ∧
        (a.moveTo (a.position + l.length)).position + todo.length = s.position + chunk.length) ∧
      input.length - (a.moveTo (a.position + l.length)).position < input.length - a.position := by
    rw [List.append_assoc] at hda
    rw [List.length_append] at hlen
    refine ⟨⟨todo,htodo,drop_moveTo hda,?_,?_⟩,?_⟩
    · rw [ha]
      rfl
    · rw [moveTo_position]
      omega
    · rw [moveTo_position]
      omega
  cases htodo with
  | nil =>
    obtain ⟨hlt,hr⟩ := hround hda
    have hpos : a.position = s.position + chunk.length := hlen
    rw [hr,advance_moveTo hlt,ha,moveTo_moveTo,moveTo_position,hpos]
    rcases hend with ⟨rfl,rfl⟩ | ⟨rfl,rfl,hseen⟩
    · exact Or.inl ⟨_,if_pos rfl,rfl⟩
    · obtain ⟨stop,hstop⟩ := holeEndOnLine_ok input (s.position + chunk.length + 1)
      have hne : stop ≠ LineEnd.insideLiteral := by
        rintro rfl
        exact hseen hstop
      rw [hstop,ok_bind,if_neg hne]
      exact Or.inl ⟨_,rfl,rfl⟩
  | @plain b todo hb htodo =>
    obtain ⟨hq,ho,hback,hline⟩ := hb
    obtain ⟨hlt,hr⟩ := hround hda
    obtain ⟨hI,hm⟩ := hnext (l := [b]) htodo hda hlen hlt Nat.one_pos
    rw [hr,if_neg hq,if_neg ho,hline,if_neg Bool.false_ne_true,if_neg hback,advance_moveTo hlt]
    exact Or.inr ⟨_,rfl,hI,hm⟩
  | @simple b todo hb htodo =>
    obtain ⟨hlt,hr⟩ := hround hda
    obtain ⟨hI,hm⟩ := hnext (l := [_,b]) htodo hda hlen hlt (Nat.succ_pos _)
    rw [hr,if_neg (by decide),if_neg (by decide),if_neg (by decide),if_pos rfl,consumeEscape_simple hda hb,ok_bind]
    exact Or.inr ⟨_,rfl,hI,hm⟩
  | @unicode x y z w todo hx hy hz hw htodo =>
    obtain ⟨hlt,hr⟩ := hround hda
    obtain ⟨hI,hm⟩ := hnext (l := [_,_,x,y,z,w]) htodo hda hlen hlt (Nat.succ_pos _)
    rw [hr,if_neg (by decide),if_neg (by decide),if_neg (by decide),if_pos rfl,consumeEscape_unicode hda hx hy hz hw,ok_bind]
    exact Or.inr ⟨_,rfl,hI,hm⟩

end Lexer

/-! ### Literals -/

/-- A run of tokens in a hole: any text that lexes on its own to pieces without a report, on one line and with its strings
whole. -/
structure TokenRun where
  text : Text
  pieces : List RawToken
  own : ∃ tokens, lex text = .ok ⟨pieces ++ [⟨.endOfFile,text.length,0⟩],tokens,[]⟩
  mark : ¬[0xEF,0xBB,0xBF] <+: text.bytes
  line : ∀ p ∈ pieces, p.kind ≠ .newline ∧ p.kind ≠ .lineComment
  strings : nesting pieces = 0

namespace TokenRun

/-- No brace of a run closes a hole that so many braces are open in. -/
def Stays (run : TokenRun) (d : ℤ) : Prop := ∀ pre ∈ run.pieces.inits, 0 ≤ d + depth pre

instance (run : TokenRun) (d : ℤ) : Decidable (run.Stays d) := inferInstanceAs (Decidable (∀ pre ∈ run.pieces.inits, 0 ≤ d + depth pre))

def piecesAt (run : TokenRun) (n : ℕ) : List RawToken := run.pieces.map (RawToken.shift n)

end TokenRun

/-- An interpolated string from a place in one of its holes to its closing quote, where so many braces of the hole are
open. -/
inductive HoleRest : ℤ → Type
  | close {d : ℤ} (run : TokenRun) (hstays : run.Stays d) (hclose : d + depth run.pieces = 0) (after : List ℕ) (hafter : Chunk after) :
      HoleRest d
  | more {d : ℤ} (run : TokenRun) (hstays : run.Stays d) (hclose : d + depth run.pieces = 0) (after : List ℕ) (hafter : Chunk after)
      (next : HoleRest 0) : HoleRest d
  | nested {d : ℤ} (run : TokenRun) (hstays : run.Stays d) (first : List ℕ) (hfirst : Chunk first) (inner : HoleRest 0)
      (next : HoleRest (d + depth run.pieces)) : HoleRest d

namespace HoleRest

def bytes {d : ℤ} : HoleRest d → List ℕ
  | close run _ _ after _ => run.text.bytes ++ '}'.toNat :: (after ++ ['"'.toNat])
  | more run _ _ after _ next => run.text.bytes ++ '}'.toNat :: (after ++ '{'.toNat :: next.bytes)
  | nested run _ first _ inner next => run.text.bytes ++ '"'.toNat :: (first ++ '{'.toNat :: (inner.bytes ++ next.bytes))

/-- The pieces of each run, one piece between each two holes and one after the last, and the pieces of the strings in the
holes. -/
def pieces {d : ℤ} (n : ℕ) : HoleRest d → List RawToken
  | close run _ _ after _ => run.piecesAt n ++ [⟨.interpolatedStringEnd,n + run.text.length,after.length + 2⟩]
  | more run _ _ after _ next => run.piecesAt n ++ (⟨.interpolatedStringMiddle,n + run.text.length,after.length + 2⟩ ::
      next.pieces (n + run.text.length + (after.length + 2)))
  | nested run _ first _ inner next => run.piecesAt n ++ (⟨.interpolatedStringStart,n + run.text.length,first.length + 2⟩ ::
      (inner.pieces (n + run.text.length + (first.length + 2)) ++
        next.pieces (n + run.text.length + (first.length + 2) + inner.bytes.length)))

-- derives the equations once, for all the proofs below
attribute [local grind =] bytes pieces

theorem close_length {d : ℤ} (run : TokenRun) (hstays : run.Stays d) (hclose : d + depth run.pieces = 0) {after : List ℕ}
    (hafter : Chunk after) : (close run hstays hclose after hafter).bytes.length = run.text.length + (after.length + 2) := by
  simp [bytes,Text.length]

theorem more_length {d : ℤ} (run : TokenRun) (hstays : run.Stays d) (hclose : d + depth run.pieces = 0) {after : List ℕ}
    (hafter : Chunk after) (next : HoleRest 0) : (more run hstays hclose after hafter next).bytes.length =
      run.text.length + (after.length + 2) + next.bytes.length := by
  simp [bytes,Text.length]
  omega

theorem nested_length {d : ℤ} (run : TokenRun) (hstays : run.Stays d) {first : List ℕ} (hfirst : Chunk first) (inner : HoleRest 0)
    (next : HoleRest (d + depth run.pieces)) : (nested run hstays first hfirst inner next).bytes.length =
      run.text.length + (first.length + 2) + inner.bytes.length + next.bytes.length := by
  simp [bytes,Text.length]
  omega

end HoleRest

/-- An interpolated string: the text before its first hole, and what follows the brace that opens the hole. -/
structure Literal where
  first : List ℕ
  first_chunk : Chunk first
  rest : HoleRest 0

namespace Literal

def bytes (L : Literal) : List ℕ := '"'.toNat :: (L.first ++ '{'.toNat :: L.rest.bytes)

/-- One piece up to the first hole, one between each two holes, one after the last, and the pieces of each hole between
them. -/
def pieces (L : Literal) (n : ℕ) : List RawToken :=
  ⟨.interpolatedStringStart,n,L.first.length + 2⟩ :: L.rest.pieces (n + (L.first.length + 2))

theorem length (L : Literal) : L.bytes.length = L.first.length + 2 + L.rest.bytes.length := by
  simp [bytes]
  omega

end Literal

namespace Lexer
variable {s v : Lexer} {base : List ℤ} {d : ℤ}

theorem start_unmarked {h : Text} (hm : ¬[0xEF,0xBB,0xBF] <+: h.bytes) : start h = {} := by
  refine if_pos ?_
  by_contra hall
  simp only [not_or,not_not] at hall
  obtain ⟨h0,h1,h2⟩ := hall
  have hb0 : h.bytes[0]? = some 0xEF := peek_byte h0 (by decide)
  have hb1 : h.bytes[1]? = some 0xBB := peek_byte h1 (by decide)
  have hb2 : h.bytes[2]? = some 0xBF := peek_byte h2 (by decide)
  refine hm ⟨h.bytes.drop 3,?_⟩
  have := drop_of_byte hb0
  rw [List.drop_zero,drop_of_byte hb1,drop_of_byte hb2] at this
  exact this.symm

/-- No hole among pieces is taken for text. -/
def Seen (input : Text) (pieces : List RawToken) : Prop := ∀ p ∈ pieces,
  p.kind = .interpolatedStringStart ∨ p.kind = .interpolatedStringMiddle → holeEndOnLine input (p.offset + p.length) ≠ .ok LineEnd.insideLiteral

/-- A stretch of a literal is lexed to its pieces, without a report and with the holes it leaves open. -/
structure Lexes (input : Text) (s v : Lexer) (length : ℕ) (pieces : List RawToken) (holes : List ℤ) : Prop where
  rounds : Rounds input s v
  position : v.position = s.position + length
  pieces : v.pieces = s.pieces ++ pieces
  diagnostics : v.diagnostics = s.diagnostics
  ok : HolesOk v
  holes : v.holes = holes

theorem Lexes.trans {t : Lexer} {j k : ℕ} {l r : List RawToken} {a b : List ℤ} (hv : Lexes input s v j l a) (ht : Lexes input v t k r b) :
    Lexes input s t (j + k) (l ++ r) b where
  rounds := hv.rounds.trans ht.rounds
  position := by rw [ht.position,hv.position,Nat.add_assoc]
  pieces := by rw [ht.pieces,hv.pieces,List.append_assoc]
  diagnostics := ht.diagnostics.trans hv.diagnostics
  ok := ht.ok
  holes := ht.holes

/-- The pieces of a run are added where it stands, and the braces it leaves open are open in its hole. -/
theorem run_lexes (run : TokenRun) (hw : Within run.text input s.position) (hs : HolesOk s) (hh : s.holes = base ++ [d])
    (hstays : run.Stays d) (hseen : Seen input (run.piecesAt s.position)) :
    ∃ v, Lexes input s v run.text.length (run.piecesAt s.position) (base ++ [d + depth run.pieces]) := by
  obtain ⟨tokens,hlex⟩ := run.own
  obtain ⟨t,hr,hpos,hpieces,hdiag⟩ := lex_rounds hlex
  have hpieces : t.pieces = run.pieces := (List.append_cancel_right hpieces).symm
  have hdiag : t.diagnostics = [] := hdiag.symm
  rw [start_unmarked run.mark] at hr
  have hf : Follows s.position s.pieces s.diagnostics (base ++ [d]) {} s :=
    ⟨rfl,by rw [hh]; exact (List.append_nil _).symm,hs,(List.append_nil _).symm,rfl⟩
  have hl : Level d d {} := ⟨Nat.le_refl 0,rfl,rfl⟩
  obtain ⟨v,e,hv,hf',hl'⟩ := rounds_follow hw hr (boundary_zero run.text.valid) hl hf (by rw [hdiag])
    (by rw [hpieces]; exact fun pre hp => hstays pre ((List.mem_inits _ _).mpr hp)) (by rw [hpieces]; exact run.line) (by
      rw [hpieces]
      intro p hp hk
      have := hseen (p.shift s.position) (List.mem_map_of_mem hp) hk
      rwa [RawToken.shift,Nat.add_assoc] at this)
  have hnil : t.holes = [] := by
    have := hl'.strings
    rw [hpieces,run.strings] at this
    exact List.length_eq_zero_iff.mp (by omega)
  have hopen : e = d + depth run.pieces := by
    have := hl'.braces
    rw [hpieces,hnil,List.sum_nil,Int.add_zero] at this
    exact this.symm
  refine ⟨v,hv,by rw [hf'.position,hpos],by rw [hf'.pieces,hpieces]; rfl,hf'.diagnostics,hf'.ok,?_⟩
  rw [hf'.holes,hnil,List.append_nil,hopen]

theorem lexStringBody_opens {a : Lexer} {i : ℕ} (hl : s.stringLoop input = .ok (a,.hole)) :
    s.lexStringBody input i true = a.pushHole 0 >>= fun w => .ok (w.emit .interpolatedStringStart i) := by
  unfold lexStringBody
  rw [hl,ok_bind]
  dsimp only
  rw [if_neg (show ¬BodyEnd.hole = .line by decide),if_neg fun hboth => hboth.2 rfl,if_pos rfl]

theorem lexStringBody_more {a : Lexer} {i : ℕ} (hl : s.stringLoop input = .ok (a,.hole)) :
    s.lexStringBody input i false = .ok (a.emit .interpolatedStringMiddle i) := by
  unfold lexStringBody
  rw [hl,ok_bind]
  dsimp only
  rw [if_neg (show ¬BodyEnd.hole = .line by decide),if_neg fun hboth => hboth.2 rfl,if_neg Bool.false_ne_true,if_pos rfl]

theorem lexStringBody_closes {a : Lexer} {i : ℕ} (hl : s.stringLoop input = .ok (a,.closed)) (hne : a.holeStackEmpty = false) :
    s.lexStringBody input i false = .ok (a.popHole.emit .interpolatedStringEnd i) := by
  unfold lexStringBody
  rw [hl,ok_bind]
  dsimp only
  rw [if_neg (show ¬BodyEnd.closed = .line by decide),if_neg fun hboth => Bool.false_ne_true hboth.1,if_neg Bool.false_ne_true,
    if_neg (show ¬BodyEnd.closed = .hole by decide),hne,if_neg Bool.false_ne_true]

theorem scanPiece_opens (hs : HolesOk s) {first : List ℕ} (hchunk : Chunk first)
    (hd : input.bytes.drop s.position = '"'.toNat :: (first ++ '{'.toNat :: rest))
    (hseen : holeEndOnLine input (s.position + (first.length + 2)) ≠ .ok LineEnd.insideLiteral) :
    ∃ v, Lexes input s v (first.length + 2) [⟨.interpolatedStringStart,s.position,first.length + 2⟩] (s.holes ++ [0]) := by
  obtain ⟨hp,hlt⟩ := peek_drop (k := 0) hd rfl
  have hd₁ : input.bytes.drop (s.moveTo (s.position + 1)).position = first ++ '{'.toNat :: rest := drop_moveTo (l := [_]) hd
  have hpos : (s.moveTo (s.position + 1)).position + first.length + 1 = s.position + (first.length + 2) := by
    rw [moveTo_position]
    omega
  obtain ⟨v,hv,hokv,hhv,hpv,hqv,hdv⟩ := pushHole_holes 0 (s := s.moveTo (s.position + (first.length + 2))) hs
  have htoken : s.scanToken input s.position (s.peek input 0) = .ok (v.emit .interpolatedStringStart s.position) := by
    have hloop := stringLoop_chunk hchunk hd₁ (Or.inr ⟨rfl,rfl,by rw [hpos]; exact hseen⟩)
    rw [hpos,moveTo_moveTo] at hloop
    rw [hp]
    unfold scanToken
    rw [if_neg (by decide),if_neg (by decide),if_neg (by decide),if_neg (by decide),if_neg (by decide),if_pos rfl,lexString,
      advance_moveTo (by omega),lexStringBody_opens hloop,hv,ok_bind]
  refine ⟨v.emit .interpolatedStringStart s.position,.single ⟨hlt,?_⟩,hpv,?_,hdv,hokv,hhv⟩
  · unfold scanPiece
    dsimp only
    split
    · exact htoken
    · rename_i hne
      obtain ⟨depth,hdepth⟩ := holeTop_ok hs (Bool.eq_false_iff.mpr hne)
      rw [hdepth,ok_bind,if_neg (by rw [hp]; exact fun h => absurd h.1 (by decide)),if_neg (by rw [hp]; decide),
        if_neg (by rw [hp]; decide)]
      exact htoken
  · simp only [emit,hqv,hpv,moveTo]
    rw [Nat.add_sub_cancel_left]

theorem scanPiece_closes (hs : HolesOk s) (hh : s.holes = base ++ [0]) {after : List ℕ} (hchunk : Chunk after) (last : Bool)
    (hd : input.bytes.drop s.position = '}'.toNat :: (after ++ (if last then '"'.toNat else '{'.toNat) :: rest))
    (hseen : last = false → holeEndOnLine input (s.position + (after.length + 2)) ≠ .ok LineEnd.insideLiteral) :
    ∃ v, Lexes input s v (after.length + 2)
      [⟨if last then .interpolatedStringEnd else .interpolatedStringMiddle,s.position,after.length + 2⟩]
      (if last then base else base ++ [0]) := by
  obtain ⟨hp,hlt⟩ := peek_drop (k := 0) hd rfl
  have hd₁ : input.bytes.drop (s.moveTo (s.position + 1)).position = after ++ (if last then '"'.toNat else '{'.toNat) :: rest :=
    drop_moveTo (l := [_]) hd
  have hpos : (s.moveTo (s.position + 1)).position + after.length + 1 = s.position + (after.length + 2) := by
    rw [moveTo_position]
    omega
  have hne : s.holeStackEmpty = false := by
    rw [← Bool.not_eq_true,holeStackEmpty_iff hs,hh]
    simp
  have hround {v : Lexer} (hv : (s.moveTo (s.position + 1)).lexStringBody input s.position false = .ok v) : Rounds input s v := by
    refine .single ⟨hlt,?_⟩
    unfold scanPiece
    dsimp only
    rw [hne,if_neg Bool.false_ne_true,holeTop_eq hs hh,ok_bind,if_pos ⟨hp,rfl⟩,advance_moveTo (by omega),hv]
  cases last with
  | true =>
    have hloop := stringLoop_chunk hchunk hd₁ (Or.inl ⟨rfl,rfl⟩)
    rw [hpos,moveTo_moveTo] at hloop
    have hbody := lexStringBody_closes (i := s.position) hloop
      (show (s.moveTo (s.position + (after.length + 2))).holeStackEmpty = false from hne)
    obtain ⟨hok,hpop⟩ := popHole_holes (s := s.moveTo (s.position + (after.length + 2))) hs hh
    refine ⟨_,hround hbody,rfl,?_,rfl,hok,hpop⟩
    simp only [emit,popHole,moveTo]
    rw [Nat.add_sub_cancel_left]
    rfl
  | false =>
    have hloop := stringLoop_chunk hchunk hd₁ (Or.inr ⟨rfl,rfl,by rw [hpos]; exact hseen rfl⟩)
    rw [hpos,moveTo_moveTo] at hloop
    refine ⟨_,hround (lexStringBody_more hloop),rfl,?_,rfl,hs,hh⟩
    simp only [emit,moveTo]
    rw [Nat.add_sub_cancel_left]
    rfl

theorem Seen.left {l r : List RawToken} (h : Seen input (l ++ r)) : Seen input l := fun p hp => h p (List.mem_append_left _ hp)

theorem Seen.right {l r : List RawToken} (h : Seen input (l ++ r)) : Seen input r := fun p hp => h p (List.mem_append_right _ hp)

theorem Lexes.drop {l r : List ℕ} {k : ℕ} {ps : List RawToken} {a : List ℤ} (hv : Lexes input s v k ps a) (hk : l.length = k)
    (hd : input.bytes.drop s.position = l ++ r) : input.bytes.drop v.position = r := by
  rw [hv.position,← List.drop_drop,hd,← hk,List.drop_left]

/-- The rest of a string from a place in a hole. The induction follows the strings in the hole as well as the holes after
it. -/
theorem rest_lexes {rest : HoleRest d} {after : List ℕ} (hs : HolesOk s) (hh : s.holes = base ++ [d])
    (hd : input.bytes.drop s.position = rest.bytes ++ after) (hseen : Seen input (rest.pieces s.position)) :
    ∃ v, Lexes input s v rest.bytes.length (rest.pieces s.position) base := by
  induction rest generalizing s base after with
  | close run hstays hclose text htext =>
    rw [HoleRest.bytes,List.append_assoc,List.cons_append,List.append_assoc] at hd
    obtain ⟨v,hv⟩ := run_lexes run ⟨_,by decide,_,hd⟩ hs hh hstays hseen.left
    rw [hclose] at hv
    obtain ⟨w,hw⟩ := scanPiece_closes hv.ok hv.holes htext true (hv.drop rfl hd) nofun
    have hall := hv.trans hw
    rw [hv.position] at hall
    rw [HoleRest.close_length]
    exact ⟨w,hall⟩
  | more run hstays hclose text htext next ih =>
    rw [HoleRest.bytes,List.append_assoc,List.cons_append,List.append_assoc,List.cons_append] at hd
    rw [HoleRest.pieces] at hseen
    obtain ⟨v,hv⟩ := run_lexes run ⟨_,by decide,_,hd⟩ hs hh hstays hseen.left
    rw [hclose] at hv
    have hdv := hv.drop rfl hd
    obtain ⟨w,hw⟩ := scanPiece_closes hv.ok hv.holes htext false hdv fun _ => by
      rw [hv.position]
      exact hseen.right _ (List.mem_cons_self ..) (Or.inr rfl)
    have hvw := hv.trans hw
    rw [hv.position] at hvw
    have hpw : w.position = s.position + run.text.length + (text.length + 2) := by rw [hvw.position,Nat.add_assoc]
    have hdw : input.bytes.drop w.position = next.bytes ++ after :=
      hw.drop (l := '}'.toNat :: (text ++ ['{'.toNat])) (by simp) (by rw [hdv]; simp)
    obtain ⟨u,hu⟩ := ih hw.ok hw.holes hdw (by rw [hpw]; exact fun p hp => hseen.right p (List.mem_cons_of_mem _ hp))
    have hall := hvw.trans hu
    rw [hpw,List.append_assoc] at hall
    rw [HoleRest.more_length,HoleRest.pieces]
    exact ⟨u,hall⟩
  | nested run hstays first hfirst inner next ihi ihn =>
    rw [HoleRest.bytes,List.append_assoc,List.cons_append,List.append_assoc,List.cons_append,List.append_assoc] at hd
    rw [HoleRest.pieces] at hseen
    obtain ⟨v,hv⟩ := run_lexes run ⟨_,by decide,_,hd⟩ hs hh hstays hseen.left
    have hdv := hv.drop rfl hd
    obtain ⟨w,hw⟩ := scanPiece_opens hv.ok hfirst hdv (by
      rw [hv.position]
      exact hseen.right _ (List.mem_cons_self ..) (Or.inl rfl))
    have hvw := hv.trans hw
    rw [hv.position] at hvw
    have hpw : w.position = s.position + run.text.length + (first.length + 2) := by rw [hvw.position,Nat.add_assoc]
    have hdw : input.bytes.drop w.position = inner.bytes ++ (next.bytes ++ after) :=
      hw.drop (l := '"'.toNat :: (first ++ ['{'.toNat])) (by simp) (by rw [hdv]; simp)
    have hmore : Seen input (inner.pieces w.position ++ next.pieces (w.position + inner.bytes.length)) := by
      rw [hpw]
      exact fun p hp => hseen.right p (List.mem_cons_of_mem _ hp)
    -- the string in the hole, then what is left of the hole
    obtain ⟨u,hu⟩ := ihi hw.ok hw.holes hdw hmore.left
    obtain ⟨x,hx⟩ := ihn hu.ok (hu.holes.trans hv.holes) (hu.drop rfl hdw) (by rw [hu.position]; exact hmore.right)
    have hall := (hvw.trans hu).trans hx
    rw [hu.position,hpw,List.append_assoc,List.append_assoc] at hall
    rw [HoleRest.nested_length,HoleRest.pieces]
    exact ⟨x,hall⟩

end Lexer

/-! ### Cutting a literal -/

/-- The rounds from a place cut a literal that stands there: its pieces and no others, and no report. -/
def CutsAt (input : Text) (s : Lexer) (L : Literal) : Prop := ∃ v, Lexer.Rounds input s v ∧ v.position = s.position + L.bytes.length ∧
  v.pieces = s.pieces ++ L.pieces s.position ∧ v.diagnostics = s.diagnostics

/-- No hole of a literal that stands at a place, of a string in one of its holes included, is taken for text. -/
def HolesSeen (input : Text) (n : ℕ) (L : Literal) : Prop := ∀ p ∈ L.pieces n,
  p.kind = .interpolatedStringStart ∨ p.kind = .interpolatedStringMiddle → holeEndOnLine input (p.offset + p.length) ≠ .ok LineEnd.insideLiteral

instance (n : ℕ) (L : Literal) : Decidable (HolesSeen input n L) := inferInstanceAs (Decidable (∀ p ∈ L.pieces n,
  p.kind = .interpolatedStringStart ∨ p.kind = .interpolatedStringMiddle →
    holeEndOnLine input (p.offset + p.length) ≠ .ok LineEnd.insideLiteral))

theorem cutsAt_of_seen {L : Literal} {s : Lexer} (hs : Lexer.HolesOk s) (hd : input.bytes.drop s.position = L.bytes ++ rest)
    (hseen : HolesSeen input s.position L) : CutsAt input s L := by
  rw [Literal.bytes,List.cons_append,List.append_assoc,List.cons_append] at hd
  obtain ⟨v,hv⟩ := Lexer.scanPiece_opens hs L.first_chunk hd (hseen _ (List.mem_cons_self ..) (Or.inl rfl))
  have hdv : input.bytes.drop v.position = L.rest.bytes ++ rest :=
    hv.drop (l := '"'.toNat :: (L.first ++ ['{'.toNat])) (by simp) (by rw [hd]; simp)
  obtain ⟨w,hw⟩ := Lexer.rest_lexes hv.ok hv.holes hdv fun p hp => hseen p (List.mem_cons_of_mem _ (by rwa [← hv.position]))
  have hall := hv.trans hw
  refine ⟨w,hall.rounds,?_,?_,hall.diagnostics⟩
  · rw [hall.position,Literal.length]
  · rw [hall.pieces,hv.position]
    rfl

theorem seen_of_cutsAt {L : Literal} {s : Lexer} (hs : Lexer.HolesOk s) (hb : Boundary input.bytes s.position)
    (hc : CutsAt input s L) : HolesSeen input s.position L := by
  obtain ⟨v,hr,-,hp,-⟩ := hc
  obtain ⟨⟨added,hadded,hseen⟩,-⟩ := Lexer.rounds_adds hr hs hb
  rw [hp] at hadded
  rw [HolesSeen,List.append_cancel_left hadded]
  exact hseen

def TokenRun.ofPieces (text : Text) (pieces : List RawToken)
    (own : (lex text).map (fun r => (r.rawPieces,r.lexDiagnostics)) = .ok (pieces ++ [⟨.endOfFile,text.length,0⟩],[]))
    (mark : ¬[0xEF,0xBB,0xBF] <+: text.bytes) (line : ∀ p ∈ pieces, p.kind ≠ .newline ∧ p.kind ≠ .lineComment)
    (strings : nesting pieces = 0) : TokenRun where
  text := text
  pieces := pieces
  own := by
    cases hr : lex text with
    | error e =>
      rw [hr] at own
      cases own
    | ok r =>
      rw [hr] at own
      obtain ⟨raw,tokens,reports⟩ := r
      cases own
      exact ⟨tokens,rfl⟩
  mark := mark
  line := line
  strings := strings

/-- `1` -/
def oneRun : TokenRun :=
  .ofPieces ⟨utf8 "1",valid_ascii (by decide)⟩ [⟨.intLiteral,0,1⟩] (by decide) (by decide) (by decide) (by decide)

def emptyRun : TokenRun := .ofPieces ⟨[],.nil⟩ [] (by decide) (by decide) (by decide) (by decide)

/-- `"{"{1}"}"` -/
def oneInside : Literal where
  first := []
  first_chunk := .nil
  rest := .nested emptyRun (by decide) [] .nil (.close oneRun (by decide) (by decide) [] .nil)
    (.close emptyRun (by decide) (by decide) [] .nil)

/-- A source that is one literal. -/
def oneInsideText : Text := ⟨utf8 "\"\x7b\"\x7b1\x7d\"\x7d\"",valid_ascii (by decide)⟩

def apostropheRun : TokenRun :=
  .ofPieces ⟨utf8 "\"'\"",valid_ascii (by decide)⟩ [⟨.stringLiteral,0,3⟩] (by decide) (by decide) (by decide) (by decide)

def apostropheInside : Literal where
  first := []
  first_chunk := .nil
  rest := .nested emptyRun (by decide) [] .nil (.close apostropheRun (by decide) (by decide) [] .nil)
    (.close emptyRun (by decide) (by decide) [] .nil)

end Ens.Lex
