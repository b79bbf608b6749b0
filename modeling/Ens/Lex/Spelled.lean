import Ens.Constants.TextLiteral
import Ens.Lex.Ended

/-! # The literals of a source

A literal in which the lexer reports nothing lies between its delimiters, each of its backslashes begins a whole escape, and a character
literal has one character. What the compiler reads in it is then text, unless an escape names half of a surrogate pair.
-/
set_option linter.all false
namespace Ens.Literals
open Loop Utf8 Ens.Lex Decode

variable {bs body : List ℕ} {text input : Text} {a i z : ℕ}

/-! ### The literals the lexer accepts -/

def isText (kind : SyntaxKind) : Bool := hasEnd kind && decide (kind ≠ .blockComment)

structure Framed (first last : ℕ) (body text : List ℕ) : Prop where
  bytes : text = first :: (body ++ [last])
  content : Content body
  valid : Valid body

/-- What the text of a literal is like in which nothing is reported. -/
def Spelled (kind : SyntaxKind) (text : Text) : Prop :=
  match kind with
  | .stringLiteral => ∃ body, Framed '"'.toNat '"'.toNat body text.bytes
  | .charLiteral => (∃ body, Framed '\''.toNat '\''.toNat body text.bytes) ∧ characterLiteralLength text = .ok 1
  | _ => ∃ first last body, first ≠ '\\'.toNat ∧ last ≠ '\\'.toNat ∧ Framed first last body text.bytes

/-- Nothing is reported inside a piece. -/
def Accepted (diagnostics : List Diagnostic) (p : RawToken) : Prop := ∀ d ∈ diagnostics, ¬(p.offset ≤ d.start ∧ d.start < p.stop)

/-- A scan emits a piece, which is spelled as its kind asks when nothing is reported. -/
def Spelt (input : Text) (s s' : Lexer) : Prop := ∃ s₁ kind i, s' = Lexer.emit s₁ kind i ∧ (isText kind = true →
  s'.diagnostics = s.diagnostics → ∃ text, input.substring s.position s'.position = .ok text ∧ Spelled kind text)

section Scan
open Lexer
variable {s s' s₁ s₂ : Lexer} {kind : SyntaxKind} {j : ℕ}

theorem framed_slice (hi : input.bytes[i]? = some a) (ha : a < 0x80) (hj : input.bytes[j]? = some z) (hz : z < 0x80) (hij : i < j)
    (hc : Content ((input.bytes.take j).drop (i + 1))) :
    ∃ text, input.substring i (j + 1) = .ok text ∧ Framed a z ((input.bytes.take j).drop (i + 1)) text.bytes := by
  have hafter := input.valid.boundary_succ hi ha
  have hend := boundary_of_ascii hj hz
  obtain ⟨text,hsub,hbytes⟩ := Text.substring_ok (boundary_of_ascii hi ha) (input.valid.boundary_succ hj hz) (by omega : i ≤ j + 1)
  refine ⟨text,hsub,?_,hc,input.valid.slice hafter hend hij⟩
  rw [hbytes,slice_append (Nat.le_succ i) (by omega : i + 1 ≤ j + 1),slice_one hi,slice_append hij (Nat.le_succ j),slice_one hj]
  rfl

def lastOf : BodyEnd → ℕ
  | .closed => '"'.toNat
  | _ => '{'.toNat

theorem stringLoop_content (hs : s.position ≤ input.length) : ∃ r, s.stringLoop input = .ok r ∧ (Ahead input s r.1 ∧
    (r.2 ≠ .line → s.position < r.1.position ∧ input.bytes[r.1.position - 1]? = some (lastOf r.2) ∧
      (r.1.diagnostics.length = s.diagnostics.length → Content ((input.bytes.take (r.1.position - 1)).drop s.position)))) := by
  have hstart : Scanned input s s := ⟨Ahead.refl input s,fun _ => .inr (by rw [slice_none]; exact .nil)⟩
  refine loop_ok (I := fun s' => Scanned input s s') (fun s => input.length - s.position) ?_ hstart (by omega)
  intro s' ha
  by_cases hend : s'.atEnd input = true
  · exact Or.inl ⟨(s',.line),by rw [if_pos hend],ha.toAhead,fun h => absurd rfl h⟩
  rw [if_neg hend]
  have hlt := atEnd_eq_false.mp (Bool.eq_false_iff.mpr hend)
  have hbyte := peek_zero_byte hlt
  have hadv := ha.toAhead.trans (advance_ahead input s')
  have hpos := advance_position hlt
  have hle := ha.le
  have hsub : (s'.advance input).position - 1 = s'.position := by omega
  -- the byte the body ends with is the last one taken
  have hdone : ∀ e, s'.peek input 0 = lastOf e → s.position < (s'.advance input).position ∧
      input.bytes[(s'.advance input).position - 1]? = some (lastOf e) ∧
      ((s'.advance input).diagnostics.length = s.diagnostics.length →
        Content ((input.bytes.take ((s'.advance input).position - 1)).drop s.position)) := by
    intro e he
    rw [hsub,advance_diagnostics,← he]
    exact ⟨by omega,hbyte,ha.content_of_lt hlt⟩
  dsimp only
  by_cases hq : s'.peek input 0 = '"'.toNat
  · rw [if_pos hq]
    exact Or.inl ⟨_,rfl,hadv,fun _ => hdone .closed hq⟩
  rw [if_neg hq]
  by_cases ho : s'.peek input 0 = '{'.toNat
  · rw [if_pos ho]
    obtain ⟨stop,hstop⟩ := holeEndOnLine_ok input (s'.position + 1)
    rw [hstop,ok_bind]
    by_cases hin : stop = LineEnd.insideLiteral
    · have hrep := (ha.toAhead.trans (report_ahead s' braceMessage s'.position (s'.position + 1))).trans (advance_ahead input _)
      have hmore := ha.reports
      refine Or.inr ⟨_,by rw [if_pos hin],⟨hrep,fun hd => ?_⟩,?_⟩
      · rw [advance_diagnostics,report,List.length_append,List.length_singleton] at hd
        omega
      · rw [advance_position (by rw [report_position]; exact hlt),report_position]
        omega
    · exact Or.inl ⟨_,by rw [if_neg hin],hadv,fun _ => hdone .hole ho⟩
  rw [if_neg ho]
  by_cases hl : isLineEnd (s'.peek input 0) = true
  · rw [if_pos hl]
    exact Or.inl ⟨_,rfl,ha.toAhead,fun h => absurd rfl h⟩
  rw [if_neg hl]
  by_cases hb : s'.peek input 0 = '\\'.toNat
  · obtain ⟨s₁,h1,ha1,hlt1,-,hquiet⟩ := consumeEscape_ok true hb
    rw [if_pos hb,h1,ok_bind]
    refine Or.inr ⟨s₁,rfl,⟨ha.toAhead.trans ha1,fun hd => ?_⟩,by omega⟩
    have hm := ha.reports
    have hm1 := ha1.reports
    rcases hquiet (by omega) with he | hc
    · exact Or.inl he
    · rw [slice_append hle ha1.le]
      exact Or.inr ((ha.content_of_lt hlt (by omega)).append hc)
  · rw [if_neg hb]
    refine Or.inr ⟨_,rfl,⟨hadv,fun hd => Or.inr ?_⟩,by omega⟩
    rw [advance_diagnostics] at hd
    rw [hpos,slice_append hle (Nat.le_succ _),slice_one hbyte]
    exact (ha.content_of_lt hlt hd).append (.plain hb .nil)

theorem emit_spelt (hk : isText kind = false) : Spelt input s (s₁.emit kind i) :=
  ⟨s₁,kind,i,rfl,fun h => by rw [hk] at h; cases h⟩

theorem loud_spelt (hle : s.diagnostics.length ≤ s₁.diagnostics.length) (hd : s₂.diagnostics.length = s₁.diagnostics.length + 1) :
    Spelt input s (s₂.emit kind i) :=
  ⟨s₂,kind,i,rfl,fun _ h => by
    have hlen := congrArg List.length h
    rw [emit] at hlen
    dsimp only at hlen
    omega⟩

theorem lexStringBody_spelt {atStart : Bool} (hbyte : input.bytes[s.position]? = some a) (ha : a < 0x80) (hne : a ≠ '\\'.toNat)
    (hquote : atStart = true → a = '"'.toNat) (h : (s.advance input).lexStringBody input s.position atStart = .ok s') :
    Spelt input s s' := by
  have hlt : s.position < input.length := (List.getElem?_eq_some_iff.mp hbyte).1
  have hpos := advance_position hlt
  obtain ⟨⟨s₁,ended⟩,h1,h⟩ := bind_ok h
  obtain ⟨r,hr1,hahead,hbody⟩ := stringLoop_content (show (s.advance input).position ≤ input.length by omega)
  obtain rfl : r = (s₁,ended) := Except.ok.inj (hr1.symm.trans h1)
  dsimp only at hahead hbody h
  rw [hpos,advance_diagnostics] at hbody
  have hmore : s.diagnostics.length ≤ s₁.diagnostics.length := by
    have := hahead.reports
    rwa [advance_diagnostics] at this
  by_cases hline : ended = .line
  · subst hline
    rw [if_pos rfl] at h
    split at h
    · cases h
      exact loud_spelt hmore (by rw [report,List.length_append]; rfl)
    · split at h
      · obtain ⟨s₂,h2,h⟩ := bind_ok h
        obtain ⟨-,hd2,-⟩ := pushHole_keeps h2
        cases h
        exact loud_spelt hmore (by rw [hd2,report,List.length_append]; rfl)
      · split at h
        · cases h
          exact loud_spelt hmore (by rw [report,List.length_append]; rfl)
        · cases h
          split
          · exact loud_spelt hmore (by rw [report,List.length_append]; rfl)
          · exact loud_spelt hmore (by rw [popHole,report,List.length_append]; rfl)
  obtain ⟨hlt1,hlast,hcontent⟩ := hbody hline
  have hascii : lastOf ended < 0x80 ∧ lastOf ended ≠ '\\'.toNat := by cases ended <;> decide
  have hstop : s₁.position - 1 + 1 = s₁.position := by omega
  have hframed : s₁.diagnostics = s.diagnostics → ∃ text, input.substring s.position s₁.position = .ok text ∧
      ∃ body, Framed a (lastOf ended) body text.bytes := by
    intro hd
    obtain ⟨text,hsub,hf⟩ := framed_slice hbyte ha hlast hascii.1 (by omega) (hcontent (by rw [hd]))
    rw [hstop] at hsub
    exact ⟨text,hsub,_,hf⟩
  -- every piece of an interpolated string
  have hpiece : ∀ {kind : SyntaxKind} {s₂ : Lexer}, isText kind = true → kind ≠ .stringLiteral → kind ≠ .charLiteral → s₂.diagnostics = s₁.diagnostics →
      s₂.position = s₁.position → Spelt input s (s₂.emit kind s.position) := by
    intro kind s₂ hk hns hnc hd hp
    refine ⟨s₂,kind,s.position,rfl,fun _ hquiet => ?_⟩
    obtain ⟨text,hsub,body,hf⟩ := hframed (hd.symm.trans hquiet)
    refine ⟨text,by rw [emit_position,hp]; exact hsub,?_⟩
    unfold Spelled
    split
    · exact absurd rfl hns
    · exact absurd rfl hnc
    · exact ⟨a,_,body,hne,hascii.2,hf⟩
  rw [if_neg hline] at h
  split at h
  · rename_i hstart
    cases h
    refine ⟨s₁,.stringLiteral,s.position,rfl,fun _ hquiet => ?_⟩
    obtain ⟨text,hsub,body,hf⟩ := hframed hquiet
    have hclosed : ended = .closed := by cases ended <;> simp_all
    rw [hquote hstart.1,hclosed] at hf
    exact ⟨text,hsub,body,hf⟩
  · split at h
    · obtain ⟨s₂,h2,h⟩ := bind_ok h
      obtain ⟨-,hd2,hpos2⟩ := pushHole_keeps h2
      cases h
      exact hpiece rfl (by decide) (by decide) hd2 hpos2
    · split at h
      · cases h
        exact hpiece rfl (by decide) (by decide) rfl rfl
      · cases h
        split
        · exact hpiece rfl (by decide) (by decide) rfl rfl
        · exact hpiece rfl (by decide) (by decide) rfl rfl

theorem lexCharacter_spelt (hc : s.peek input 0 = '\''.toNat) (h : s.lexCharacter input s.position = .ok s') : Spelt input s s' := by
  have hbyte : input.bytes[s.position]? = some '\''.toNat := peek_byte hc (by decide)
  have hlt : s.position < input.length := (List.getElem?_eq_some_iff.mp hbyte).1
  have hpos := advance_position hlt
  obtain ⟨⟨s₁,closed⟩,h1,h⟩ := bind_ok h
  obtain ⟨r,hr1,hahead,-,hbody⟩ := characterLoop_ok (show (s.advance input).position ≤ input.length by omega)
  obtain rfl : r = (s₁,closed) := Except.ok.inj (hr1.symm.trans h1)
  dsimp only at hahead hbody h
  rw [hpos,advance_diagnostics] at hbody
  have hmore : s.diagnostics.length ≤ s₁.diagnostics.length := by
    have := hahead.reports
    rwa [advance_diagnostics] at this
  cases closed with
  | false =>
    rw [if_pos rfl] at h
    cases h
    exact loud_spelt hmore (by rw [report,List.length_append]; rfl)
  | true =>
    obtain ⟨hlt1,hlast,hcontent⟩ := hbody rfl
    rw [if_neg (fun h => Bool.false_ne_true h.symm)] at h
    split at h
    · rename_i hcount
      obtain ⟨literal,hsub,h⟩ := bind_ok h
      obtain ⟨count,hlength,h⟩ := bind_ok h
      split at h
      · obtain ⟨refusal,-,h⟩ := bind_ok h
        cases h
        exact loud_spelt hmore (by rw [report,List.length_append]; rfl)
      · rename_i hone
        cases h
        refine ⟨s₁,.charLiteral,s.position,rfl,fun _ _ => ⟨literal,hsub,?_⟩⟩
        obtain ⟨text,htext,hf⟩ := framed_slice hbyte (by decide) hlast (by decide) (by omega) (hcontent hcount)
        rw [show s₁.position - 1 + 1 = s₁.position by omega] at htext
        obtain rfl : text = literal := Except.ok.inj (htext.symm.trans hsub)
        rw [not_not.mp hone] at hlength
        exact ⟨⟨_,hf⟩,hlength⟩
    · rename_i hcount
      cases h
      refine ⟨s₁,.charLiteral,s.position,rfl,fun _ hquiet => absurd ?_ hcount⟩
      rw [← hquiet,emit]

theorem lexNumber_spelt (h : s.lexNumber input i = .ok s') : Spelt input s₁ s' := by
  obtain ⟨⟨s₂,isFloat⟩,-,h⟩ := bind_ok h
  dsimp only at h
  split at h
  · cases h
    exact emit_spelt rfl
  · split at h
    · cases h
      exact emit_spelt rfl
    · split at h
      · cases h
        exact emit_spelt (by split <;> rfl)
      · cases h
        exact emit_spelt (by split <;> rfl)

theorem isText_of_not_hasEnd (hk : hasEnd kind = false) : isText kind = false := by rw [isText,hk,Bool.false_and]

theorem lexIdentifierOrKeyword_spelt (h : s.lexIdentifierOrKeyword input i = .ok s') : Spelt input s₁ s' := by
  obtain ⟨s₂,-,h⟩ := bind_ok h
  obtain ⟨text,-,h⟩ := bind_ok h
  split at h
  · cases h
    exact emit_spelt rfl
  · rename_i keyword hkeyword
    cases h
    obtain ⟨kw,hkw,rfl⟩ := Option.map_eq_some_iff.mp hkeyword
    exact emit_spelt (isText_of_not_hasEnd (keywords_hasEnd kw (List.mem_of_find?_eq_some hkw)))

theorem lexOperator_spelt (h : s.lexOperator input i = .ok s') : Spelt input s₁ s' := by
  unfold lexOperator at h
  split at h
  · rename_i operator kind hfound
    cases h
    exact emit_spelt (isText_of_not_hasEnd (operators_hasEnd _ (List.mem_of_find?_eq_some hfound)))
  · split at h
    · rename_i single hsingle
      cases h
      obtain ⟨row,hrow,rfl⟩ := Option.map_eq_some_iff.mp hsingle
      exact emit_spelt (isText_of_not_hasEnd (singleCharacters_hasEnd row (List.mem_of_find?_eq_some hrow)))
    · obtain ⟨runEnd,-,h⟩ := bind_ok h
      obtain ⟨s₂,-,h⟩ := bind_ok h
      obtain ⟨s₃,-,h⟩ := bind_ok h
      cases h
      exact emit_spelt rfl

theorem scanToken_spelt (hlt : s.position < input.length) (h : s.scanToken input s.position (s.peek input 0) = .ok s') :
    Spelt input s s' := by
  have hbyte := peek_zero_byte hlt
  unfold scanToken at h
  split at h
  · cases h
    exact emit_spelt rfl
  · split at h
    · cases h
      exact emit_spelt rfl
    · split at h
      · split at h
        · cases h
          exact emit_spelt rfl
        · split at h
          · cases h
            exact emit_spelt rfl
          · exact lexOperator_spelt h
      · split at h
        · exact lexNumber_spelt h
        · split at h
          · exact lexIdentifierOrKeyword_spelt h
          · split at h
            · rename_i hquote
              rw [hquote] at hbyte
              exact lexStringBody_spelt hbyte (by decide) (by decide) (fun _ => rfl) h
            · split at h
              · rename_i hquote
                exact lexCharacter_spelt hquote h
              · exact lexOperator_spelt h

theorem scanPiece_spelt (hlt : s.position < input.length) (h : s.scanPiece input = .ok s') : Spelt input s s' := by
  have hdeeper : ∀ value, (do
      let s₁ ← s.setHoleTop value
      s₁.scanToken input s.position (s.peek input 0)) = .ok s' → Spelt input s s' := by
    intro value h
    obtain ⟨s₁,h1,h⟩ := bind_ok h
    obtain ⟨-,-,hpos,-,hd⟩ := setHoleTop_eq h1
    have hpeek : s.peek input 0 = s₁.peek input 0 := by rw [peek,peek,hpos]
    rw [hpeek,← hpos] at h
    obtain ⟨s₂,kind,i,rfl,hs⟩ := scanToken_spelt (hpos ▸ hlt) h
    refine ⟨s₂,kind,i,rfl,fun hk hquiet => ?_⟩
    rw [← hpos]
    exact hs hk (hquiet.trans hd.symm)
  unfold scanPiece at h
  dsimp only at h
  split at h
  · exact scanToken_spelt hlt h
  · obtain ⟨depth,-,h⟩ := bind_ok h
    split at h
    · rename_i hclose
      have hbyte := peek_zero_byte hlt
      have hmiddle : false = true → '}'.toNat = '"'.toNat := by rintro ⟨⟩
      rw [hclose.1] at hbyte
      exact lexStringBody_spelt hbyte (by decide) (by decide) hmiddle h
    · split at h
      · exact hdeeper _ h
      · split at h
        · exact hdeeper _ h
        · exact scanToken_spelt hlt h

/-- The pieces so far in which nothing is reported are spelled as their kinds ask. -/
def AllSpelled (input : Text) (s : Lexer) : Prop := ∀ p ∈ s.pieces, isText p.kind = true → Accepted s.diagnostics p →
  ∃ text, input.substring p.offset p.stop = .ok text ∧ Spelled p.kind text

theorem AllSpelled.step (hall : AllSpelled input s) (hlt : s.position < s'.position) (hs : Scanning input s s') (hspelt : Spelt input s s') :
    AllSpelled input s' := by
  obtain ⟨p,hp,hstart,hstop,htells⟩ := hs
  obtain ⟨ds,hds,hin,-⟩ := htells.new (by omega)
  intro q hq hk haccepted
  rw [hp] at hq
  rcases List.mem_append.mp hq with hq | hq
  · exact hall q hq hk fun d hd => haccepted d (by rw [hds]; exact List.mem_append_left _ hd)
  · obtain rfl := List.mem_singleton.mp hq
    obtain ⟨s₁,kind,i,rfl,hspelled⟩ := hspelt
    -- what is reported of the piece is reported inside it
    have hnone : ds = [] := List.eq_nil_iff_forall_not_mem.mpr fun d hd =>
      haccepted d (by rw [hds]; exact List.mem_append_right _ hd) (hin d hd)
    have hkind : q.kind = kind := by
      have hlast := congrArg List.getLast? hp
      rw [emit,List.getLast?_concat,List.getLast?_concat] at hlast
      rw [← Option.some.inj hlast]
    rw [hstart,hstop,hkind]
    exact hspelled (hkind ▸ hk) (by rw [hds,hnone,List.append_nil])

theorem rounds_spelled (hr : Rounds input (start input) s) : AllSpelled input s := by
  induction hr with
  | refl =>
    intro p hp hk
    rw [isText,((start_plain input).2 p hp).1] at hk
    cases hk
  | tail hr hstep ih =>
    have ht := rounds_told hr (start_told input)
    obtain ⟨t,hok,hscan⟩ := scanPiece_scans ht.tiled.holes ht.tiled.boundary hstep.1
    cases Except.ok.inj (hok.symm.trans hstep.2)
    exact ih.step hscan.lt (scanPiece_scanning ht.tiled.holes ht.tiled.boundary hstep.1 hstep.2) (scanPiece_spelt hstep.1 hstep.2)

end Scan

/-! ### The literals of a source -/

/-- A literal is read as text: by both readers of strings alike, or as the one character it spells. -/
def ReadAsText (kind : SyntaxKind) (text : Text) : Prop :=
  match kind with
  | .stringLiteral => ∃ bytes, decodeStringBytes text = .ok bytes ∧ Valid bytes ∧ decodeString text = .ok bytes
  | .charLiteral => ∃ code body, charCodepoint text = .ok code ∧ Scalar code ∧
      text.bytes = '\''.toNat :: (body ++ ['\''.toNat]) ∧ SpellsOne body code
  | _ => ∃ bytes, decodeStringBytes text = .ok bytes ∧ Valid bytes

theorem namesSurrogate_concat (hc : Content bs) (hz : z ≠ '\\'.toNat) : NamesSurrogate (bs ++ [z]) ↔ NamesSurrogate bs := by
  induction hc with
  | nil => exact namesSurrogate_plain hz
  | plain hb _ ih => rw [List.cons_append,namesSurrogate_plain hb,namesSurrogate_plain hb,ih]
  | simple he _ ih =>
    have hu := (isSimpleEscape_ascii he).2
    rw [List.cons_append,List.cons_append,namesSurrogate_simple hu,namesSurrogate_simple hu,ih]
  | unicode hp hq hr hs _ ih =>
    simp only [List.cons_append]
    rw [namesSurrogate_unicode hp hq hr hs,namesSurrogate_unicode hp hq hr hs,ih]

theorem Framed.namesSurrogate (hf : Framed a z body bs) (ha : a ≠ '\\'.toNat) (hz : z ≠ '\\'.toNat) :
    NamesSurrogate bs ↔ NamesSurrogate body := by
  rw [hf.bytes,namesSurrogate_plain ha,namesSurrogate_concat hf.content hz]

theorem Framed.reads (hf : Framed a z body text.bytes) (ha : a ≠ '\\'.toNat) (hz : z ≠ '\\'.toNat) :
    ∃ bytes, decodeStringBytes text = .ok bytes ∧ (Valid bytes ↔ ¬NamesSurrogate text.bytes) ∧
      (a = '"'.toNat → z = '"'.toNat → decodeString text = .ok bytes) := by
  obtain ⟨out,ho⟩ := denotes_of_content hf.content
  refine ⟨out,decodeStringBytes_ok hf.bytes ho,?_,fun hqa hqz => decodeString_ok (by rw [hf.bytes,hqa,hqz]) ho⟩
  rw [hf.namesSurrogate ha hz]
  exact valid_iff hf.valid ho

theorem Framed.length (hf : Framed a z body text.bytes) : text.length = body.length + 2 := by
  rw [Text.length,hf.bytes,List.length_cons,List.length_append,List.length_singleton]

theorem Framed.character (hf : Framed '\''.toNat '\''.toNat body text.bytes) (hone : characterLiteralLength text = .ok 1) :
    ∃ code, charCodepoint text = .ok code ∧ SpellsOne body code := by
  obtain ⟨n,hn⟩ := counts_of_content hf.content
  have hlen := hf.length
  have hd : text.bytes.drop 1 = body ++ ['\''.toNat] := by rw [hf.bytes]; rfl
  rw [characterLiteralLength_eq,count_loop hn hd (by omega) (by omega),Nat.zero_add] at hone
  obtain rfl := Except.ok.inj hone
  obtain ⟨code,hcode⟩ := spellsOne_of_counts hf.valid hn
  exact ⟨code,charCodepoint_ok hf.bytes hcode,hcode⟩

theorem readAsText_iff {kind : SyntaxKind} (h : Spelled kind text) : ReadAsText kind text ↔ ¬NamesSurrogate text.bytes := by
  unfold Spelled at h
  unfold ReadAsText
  split at h
  · obtain ⟨body,hf⟩ := h
    obtain ⟨bytes,hbytes,hvalid,hstring⟩ := hf.reads (by decide) (by decide)
    rw [← hvalid]
    refine ⟨?_,fun hv => ⟨bytes,hbytes,hv,hstring rfl rfl⟩⟩
    rintro ⟨found,hfound,hv,-⟩
    rwa [Except.ok.inj (hbytes.symm.trans hfound)]
  · obtain ⟨⟨body,hf⟩,hone⟩ := h
    obtain ⟨code,hcode,hspells⟩ := hf.character hone
    rw [hf.namesSurrogate (by decide) (by decide),← spellsOne_iff hspells]
    refine ⟨?_,fun hscalar => ⟨code,body,hcode,hscalar,hf.bytes,hspells⟩⟩
    rintro ⟨found,_,hfound,hscalar,-⟩
    rwa [Except.ok.inj (hcode.symm.trans hfound)]
  · obtain ⟨a,z,body,ha,hz,hf⟩ := h
    obtain ⟨bytes,hbytes,hvalid,-⟩ := hf.reads ha hz
    rw [← hvalid]
    refine ⟨?_,fun hv => ⟨bytes,hbytes,hv⟩⟩
    rintro ⟨found,hfound,hv⟩
    rwa [Except.ok.inj (hbytes.symm.trans hfound)]

/-- A literal in which the lexer reports nothing is read as text exactly when no escape of it names half of a surrogate pair. -/
theorem literals_read (input : Text) : ∃ r, lex input = .ok r ∧ ∀ p ∈ r.rawPieces, isText p.kind = true → Accepted r.lexDiagnostics p →
    ∃ text, input.substring p.offset p.stop = .ok text ∧ (ReadAsText p.kind text ↔ ¬NamesSurrogate text.bytes) := by
  obtain ⟨r,hr,-⟩ := lex_tiles input
  obtain ⟨s,hrounds,-,hpieces,hdiagnostics⟩ := Lexer.lex_rounds hr
  refine ⟨r,hr,fun p hp hk haccepted => ?_⟩
  rw [hpieces] at hp
  rcases List.mem_append.mp hp with hp | hp
  · obtain ⟨text,hsub,hspelled⟩ := rounds_spelled hrounds p hp hk (hdiagnostics ▸ haccepted)
    exact ⟨text,hsub,readAsText_iff hspelled⟩
  · rw [List.mem_singleton.mp hp] at hk
    cases hk

/-- The string `"\uD800"`. -/
def halfString : Text := ⟨utf8 "\"\\uD800\"",valid_ascii (by decide)⟩

/-- The character `'\uD800'`. -/
def halfCharacter : Text := ⟨utf8 "'\\uD800'",valid_ascii (by decide)⟩

/-- Half of a surrogate pair is accepted, and read as bytes that are no text and as a code that is no character's. -/
theorem literals_surrogate : (∃ r, lex halfString = .ok r ∧ r.rawPieces = [⟨.stringLiteral,0,8⟩,⟨.endOfFile,8,0⟩] ∧ r.lexDiagnostics = []) ∧
    decodeStringBytes halfString = .ok [0xED,0xA0,0x80] ∧ ¬ReadAsText .stringLiteral halfString ∧
    (∃ r, lex halfCharacter = .ok r ∧ r.rawPieces = [⟨.charLiteral,0,8⟩,⟨.endOfFile,8,0⟩] ∧ r.lexDiagnostics = []) ∧
    charCodepoint halfCharacter = .ok 0xD800 ∧ ¬ReadAsText .charLiteral halfCharacter := by
  have hbytes : decodeStringBytes halfString = .ok (encode 0xD800 ++ []) := by decide +kernel
  have hcode : charCodepoint halfCharacter = .ok 0xD800 := by decide +kernel
  refine ⟨⟨_,rfl,by decide +kernel,by decide +kernel⟩,hbytes,?_,⟨_,rfl,by decide +kernel,by decide +kernel⟩,hcode,?_⟩
  · rintro ⟨bytes,hfound,hvalid,-⟩
    rw [← Except.ok.inj (hbytes.symm.trans hfound)] at hvalid
    exact surrogate_not_valid (by decide) hvalid
  · rintro ⟨code,_,hfound,hscalar,-⟩
    rw [← Except.ok.inj (hcode.symm.trans hfound)] at hscalar
    exact absurd hscalar (by decide)

end Ens.Literals
