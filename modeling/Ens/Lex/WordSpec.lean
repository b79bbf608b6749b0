import Ens.Lex.ScanSpec

/-! # Words, numbers and operators

Words and numbers are made of bytes that are characters of their own, but for the refused
characters kept within a word, which are taken whole.
-/
set_option linter.all false
namespace Ens.Lex
open Loop Utf8

variable {input : Text} {i b k : ℕ}

/-! ### Characters no token begins with -/

theorem refusedLength_boundary (hb : Boundary input.bytes i) (h : refusedLength input i ≠ 0) :
    Boundary input.bytes (i + refusedLength input i) := by
  cases hd : input.bytes.drop i with
  | nil => simp [refusedLength,hd] at h
  | cons c rest =>
    have hlt : i < input.bytes.length := by
      by_contra hn
      rw [List.drop_eq_nil_iff.mpr (Nat.not_lt.mp hn)] at hd
      cases hd
    obtain ⟨w,hw,⟨t,ht⟩,hn⟩ := input.valid.next hb hlt
    obtain ⟨a,r,rfl,-,hr⟩ := hw.shape
    rw [hd,List.cons_append] at ht
    obtain ⟨rfl,rfl⟩ := List.cons.inj ht
    have htail : r.takeWhile isContinuationByte = r :=
      List.takeWhile_eq_self_iff.mpr fun b hb => isContinuationByte_iff.mpr (hr b hb)
    have hlen : refusedLength input i = (a :: r).length := by
      simp only [refusedLength,hd] at h ⊢
      rw [utf8SequenceLength_char hw,List.length_cons,Nat.add_sub_cancel,List.take_left,htail] at h ⊢
      split at h
      · exact absurd rfl h
      · rename_i hc
        rw [if_neg hc,Nat.add_comm]
    rw [hlen]
    exact hn

theorem refusedRunEnd_ok (hb : Boundary input.bytes i) : ∃ runEnd, refusedRunEnd input i = .ok runEnd ∧
    i ≤ runEnd ∧ Boundary input.bytes runEnd ∧ (runEnd = i → refusedLength input i = 0) := by
  refine loop_ok (I := fun stop => i ≤ stop ∧ Boundary input.bytes stop)
    (fun stop => input.length - stop) ?_ ⟨Nat.le_refl i,hb⟩ (by omega)
  rintro stop ⟨hle,hbs⟩
  by_cases h0 : refusedLength input stop = 0
  · exact Or.inl ⟨stop,by rw [if_pos h0],hle,hbs,fun he => he ▸ h0⟩
  · have hn := refusedLength_boundary hbs h0
    have hl : input.length = input.bytes.length := rfl
    have := hn.1
    exact Or.inr ⟨_,by rw [if_neg h0],⟨by omega,hn⟩,by omega⟩

namespace Lexer
variable {s s₁ s₂ : Lexer}

/-- A later state that stands at a boundary if the first one does. -/
structure Steps (input : Text) (s s' : Lexer) : Prop extends Ahead input s s' where
  boundary : Boundary input.bytes s.position → Boundary input.bytes s'.position

theorem Steps.refl (input : Text) (s : Lexer) : Steps input s s := ⟨Ahead.refl input s,fun h => h⟩

theorem Steps.trans (h : Steps input s s₁) (h' : Steps input s₁ s₂) : Steps input s s₂ :=
  ⟨h.toAhead.trans h'.toAhead,fun hb => h'.boundary (h.boundary hb)⟩

theorem report_steps (s : Lexer) (message : List ℕ) (i j : ℕ) :
    Steps input s (s.report message i j) :=
  ⟨report_ahead s message i j,fun h => h⟩

theorem advanceWhile_steps (input : Text) {p : ℕ → Bool} (hp : ∀ b, p b = true → b < 0x80) (s : Lexer) :
    Steps input s (s.advanceWhile input p) :=
  ⟨advanceWhile_ahead input p s,advanceWhile_ascii hp⟩

theorem advance_steps (h : s.peek input 0 = b) (h0 : b ≠ 0) (hb : b < 0x80) :
    Steps input s (s.advance input) :=
  ⟨advance_ahead input s,fun _ => (advance_ascii (peek_byte h h0) hb).2⟩

theorem advance_steps_lt (h : s.peek input 0 = b) (h0 : b ≠ 0) (hb : b < 0x80) :
    s.position < (s.advance input).position := by
  rw [(advance_ascii (peek_byte h h0) hb).1]
  exact Nat.lt_succ_self _

theorem advanceTo_ok {stop : ℕ} (h : Boundary input.bytes stop) (hle : s.position ≤ stop) :
    ∃ s', s.advanceTo input stop = .ok s' ∧ Steps input s s' ∧ s'.position = stop := by
  refine ⟨_,if_pos h.1,⟨⟨rfl,rfl,rfl,?_,fun _ => ?_,Nat.le_refl _⟩,fun _ => ?_⟩,Nat.max_eq_right hle⟩
  · exact Nat.le_max_left ..
  · dsimp only; rw [Nat.max_eq_right hle]; exact h.1
  · dsimp only; rw [Nat.max_eq_right hle]; exact h

theorem reportRefused_ok (hi : Boundary input.bytes i) (hs : Boundary input.bytes s.position)
    (hle : i ≤ s.position) :
    ∃ s', s.reportRefused input i = .ok s' ∧ Steps input s s' ∧ s'.position = s.position := by
  obtain ⟨u,hu,-⟩ := Text.substring_ok hi hs hle
  exact ⟨_,by rw [reportRefused,hu,ok_bind],report_steps _ _ _ _,rfl⟩

/-! ### Words -/

theorem identifierLoop_ok (hb : Boundary input.bytes s.position) :
    ∃ s', s.identifierLoop input = .ok s' ∧ Steps input s s' ∧
      (isIdentifierContinue (s.peek input 0) = true → s.position < s'.position) := by
  refine loop_ok (I := fun s' => Steps input s s' ∧ (s' = s ∨ s.position < s'.position))
    (fun s => input.length - s.position) ?_ ⟨Steps.refl input s,Or.inl rfl⟩ (by omega)
  rintro s' ⟨hst,hlt⟩
  have hbs := hst.boundary hb
  cases hend : s'.atEnd input with
  | true =>
    refine Or.inl ⟨s',by rw [if_pos rfl],hst,fun hc => ?_⟩
    rcases hlt with rfl | hlt
    · have hz : s'.peek input 0 = 0 := by
        have hle : input.bytes.length ≤ s'.position := atEnd_eq_true.mp hend
        simp [peek,byteAt,List.getD_eq_getElem?_getD,hle]
      rw [hz] at hc
      exact absurd hc (by decide)
    · exact hlt
  | false =>
    have hpos := atEnd_eq_false.mp hend
    cases hcont : isIdentifierContinue (s'.peek input 0) with
    | true =>
      have hne : s'.peek input 0 ≠ 0 := fun h0 => by
        rw [h0] at hcont
        exact absurd hcont (by decide)
      have hascii := isIdentifierContinue_ascii hcont
      have hpeek : s'.peek input 0 = s'.peek input 0 := rfl
      have hadv := advance_steps hpeek hne hascii
      have hltadv := advance_steps_lt hpeek hne hascii
      have hle := hst.le
      refine Or.inr ⟨_,by rw [if_neg (by simp),if_pos rfl],⟨hst.trans hadv,Or.inr (by omega)⟩,by omega⟩
    | false =>
      obtain ⟨runEnd,hrun,hle,hbr,-⟩ := refusedRunEnd_ok hbs
      rw [if_neg (by simp),if_neg (by simp),hrun,ok_bind]
      by_cases hstop : runEnd = s'.position ∨ isIdentifierContinue (byteAt input runEnd) = false
      · refine Or.inl ⟨s',by rw [if_pos hstop],hst,fun hc => ?_⟩
        rcases hlt with rfl | hlt
        · rw [hcont] at hc; cases hc
        · exact hlt
      · rw [not_or] at hstop
        obtain ⟨s₁,h1,hs1,hp1⟩ := advanceTo_ok (s := s') hbr hle
        obtain ⟨s₂,h2,hs2,hp2⟩ := reportRefused_ok (s := s₁) hbs (hs1.boundary hbs) hs1.le
        have hle' := hst.le
        have hne := hstop.1
        refine Or.inr ⟨s₂,?_,⟨(hst.trans hs1).trans hs2,Or.inr (by omega)⟩,by omega⟩
        rw [if_neg (not_or.mpr hstop)]
        simp only [h1,h2,ok_bind]

theorem lexIdentifierOrKeyword_scans (hs : HolesOk s) (hb : Boundary input.bytes s.position)
    (hc : isIdentifierStart (s.peek input 0) = true) :
    ∃ s', s.lexIdentifierOrKeyword input s.position = .ok s' ∧ Scans input s s' := by
  obtain ⟨s₁,h1,hst,hlt⟩ := identifierLoop_ok hb
  have hlt := hlt (by simp [isIdentifierContinue,hc])
  obtain ⟨text,ht,-⟩ := Text.substring_ok hb (hst.boundary hb) hst.le
  simp only [lexIdentifierOrKeyword,h1,ht,ok_bind]
  cases hk : keywordFromText text with
  | none => exact ⟨_,rfl,emit_scans hst.toAhead hs hlt (hst.boundary hb) (by decide)⟩
  | some kind =>
    exact ⟨_,rfl,emit_scans hst.toAhead hs hlt (hst.boundary hb) (keywordFromText_significant hk).1⟩

/-! ### Numbers -/

theorem advance_two_steps {c d : ℕ} (hc : s.peek input 0 = c) (hd : s.peek input 1 = d)
    (hc0 : c ≠ 0) (hd0 : d ≠ 0) (hc8 : c < 0x80) (hd8 : d < 0x80) :
    Steps input s ((s.advance input).advance input) ∧
      ((s.advance input).advance input).position = s.position + 2 := by
  have hd' := peek_byte hd hd0
  have h1 := (advance_ascii (peek_byte hc hc0) hc8).1
  have hpeek : (s.advance input).peek input 0 = d := by
    rw [peek,h1]; exact byteAt_some hd'
  refine ⟨(advance_steps hc hc0 hc8).trans (advance_steps hpeek hd0 hd8),?_⟩
  exact advance_two (peek_byte hc hc0) hd'

theorem lexRadix_ok {p : ℕ → Bool} (hp : ∀ b, p b = true → b < 0x80) (message : List ℕ → List ℕ)
    (hb : Boundary input.bytes s.position) {c d : ℕ} (hc : s.peek input 0 = c) (hd : s.peek input 1 = d)
    (hc0 : c ≠ 0) (hd0 : d ≠ 0) (hc8 : c < 0x80) (hd8 : d < 0x80) :
    ∃ s', s.lexRadix input p message s.position = .ok s' ∧ Steps input s s' ∧ s.position < s'.position := by
  obtain ⟨h2,hpos⟩ := advance_two_steps hc hd hc0 hd0 hc8 hd8
  have hw := advanceWhile_steps input (orUnderscore_ascii hp) ((s.advance input).advance input)
  have hst := h2.trans hw
  have hle := hw.le
  unfold lexRadix
  dsimp only
  split
  · obtain ⟨u,hu,-⟩ := Text.substring_ok hb (hst.boundary hb) hst.le
    simp only [hu,ok_bind]
    exact ⟨_,rfl,hst.trans (report_steps _ _ _ _),by rw [report_position]; omega⟩
  · exact ⟨_,rfl,hst,by omega⟩

/-- A boundary of the source is a boundary of a substring around it. -/
theorem substring_boundary_at {u : Text} {i j k : ℕ} (hu : u.bytes = (input.bytes.take j).drop i)
    (hk : Boundary input.bytes (i + k)) (hj : i + k ≤ j) : Boundary u.bytes k := by
  rw [hu]
  exact boundary_drop (boundary_take hk hj)

theorem lexOctal_ok (hb : Boundary input.bytes s.position) {c d : ℕ} (hc : s.peek input 0 = c)
    (hd : s.peek input 1 = d) (hc0 : c ≠ 0) (hd0 : d ≠ 0) (hc8 : c < 0x80) (hd8 : d < 0x80) :
    ∃ s', s.lexOctal input s.position = .ok s' ∧ Steps input s s' ∧ s.position < s'.position := by
  obtain ⟨h2,hpos⟩ := advance_two_steps hc hd hc0 hd0 hc8 hd8
  have hw := advanceWhile_steps input (orUnderscore_ascii fun _ => isDigit_ascii)
    ((s.advance input).advance input)
  have hst := h2.trans hw
  have hle := hw.le
  obtain ⟨written,hwr,hbytes⟩ := Text.substring_ok hb (hst.boundary hb) hst.le
  have htwo : Boundary written.bytes 2 := by
    refine substring_boundary_at hbytes ?_ (by omega)
    rw [← hpos]
    exact h2.boundary hb
  unfold lexOctal
  dsimp only
  rw [hwr,ok_bind]
  split
  · obtain ⟨digits,hdig,-⟩ := Text.substringFrom_ok htwo
    simp only [hdig,ok_bind]
    exact ⟨_,rfl,hst.trans (report_steps _ _ _ _),by rw [report_position]; omega⟩
  · split
    · exact ⟨_,rfl,hst.trans (report_steps _ _ _ _),by rw [report_position]; omega⟩
    · split
      · exact ⟨_,rfl,hst,by omega⟩
      · rename_i n hn
        obtain ⟨hlt,hex,-⟩ := List.findIdx?_eq_some_iff_getElem.mp hn
        have hbyte : written.bytes[n + 2]? = some (written.bytes.drop 2)[n] := by
          rw [Nat.add_comm,← List.getElem?_drop,List.getElem?_eq_getElem hlt]
        have hascii : (written.bytes.drop 2)[n] < 0x80 := by
          simp [isOctalExcess] at hex ⊢; omega
        obtain ⟨digit,hdg,-⟩ := Text.substring_ok (boundary_of_ascii hbyte hascii)
          (written.valid.boundary_succ hbyte hascii) (Nat.le_succ _)
        have hdg : written.substring (n + 2) (n + 3) = .ok digit := hdg
        simp only [hdg,ok_bind]
        exact ⟨_,rfl,hst.trans (report_steps _ _ _ _),by rw [report_position]; omega⟩

theorem checkLeadingZero_ok (hi : Boundary input.bytes i) (hs : Boundary input.bytes s.position)
    (hle : i ≤ s.position) :
    ∃ s', s.checkLeadingZero input i = .ok s' ∧ Steps input s s' ∧ s'.position = s.position := by
  obtain ⟨written,hw,-⟩ := Text.substring_ok hi hs hle
  simp only [checkLeadingZero,hw,ok_bind]
  split
  · exact ⟨s,rfl,Steps.refl input s,rfl⟩
  · rename_i hc
    simp only [not_or,not_not] at hc
    have hhead : written.bytes[0]? = some '0'.toNat := by rw [← List.head?_eq_getElem?]; exact hc.2.1
    have h1 := written.valid.boundary_succ hhead (by decide)
    have hfirst := written.valid.boundary_run h1 (List.takeWhile_prefix
      fun d => decide (d = '0'.toNat) || decide (d = '_'.toNat)) fun b hb => by
        have := List.mem_takeWhile_imp hb
        simp at this; omega
    obtain ⟨rest,hr,-⟩ := Text.substringFrom_ok hfirst
    split
    · exact ⟨_,rfl,report_steps _ _ _ _,rfl⟩
    · simp only [Nat.zero_add] at hr
      simp only [hr,Except.map,ok_bind]
      exact ⟨_,rfl,report_steps _ _ _ _,rfl⟩

/-- The byte at the position is there and is the one a class of bytes says. -/
theorem peek_class {p : ℕ → Bool} (hp : p 0 = false) (h : p (s.peek input 0) = true) :
    s.peek input 0 ≠ 0 := fun h0 => by
  rw [h0,hp] at h; cases h

theorem lexFraction_steps (input : Text) (s : Lexer) : Steps input s (s.lexFraction input).1 := by
  unfold lexFraction
  split
  · rename_i hc
    exact (advance_steps hc.1 (by decide) (by decide)).trans
      (advanceWhile_steps input (orUnderscore_ascii fun _ => isDigit_ascii) _)
  · exact Steps.refl input s

theorem advance_either {c d : Char} (h : s.peek input 0 = c.toNat ∨ s.peek input 0 = d.toNat)
    (hc : 0 < c.toNat ∧ c.toNat < 0x80) (hd : 0 < d.toNat ∧ d.toNat < 0x80) :
    Steps input s (s.advance input) := by
  rcases h with h | h
  · exact advance_steps h (by omega) hc.2
  · exact advance_steps h (by omega) hd.2

theorem lexExponent_steps (input : Text) (s : Lexer) : Steps input s (s.lexExponent input).1 := by
  unfold lexExponent
  split
  · rename_i hc
    have hone := advance_either hc (by decide) (by decide)
    dsimp only
    refine hone.trans ?_
    split
    · rename_i hsign
      exact (advance_either hsign (by decide) (by decide)).trans
        (advanceWhile_steps input (fun _ => isDigit_ascii) _)
    · exact advanceWhile_steps input (fun _ => isDigit_ascii) _
  · exact Steps.refl input s

theorem lexDecimal_ok (hb : Boundary input.bytes s.position) (hc : isDigit (s.peek input 0) = true) :
    ∃ s' isFloat, s.lexDecimal input s.position = .ok (s',isFloat) ∧ Steps input s s' ∧
      s.position < s'.position := by
  have hdigit : ∀ b, isDigit b = true → b < 0x80 := fun _ => isDigit_ascii
  have hone := advanceWhile_steps input (orUnderscore_ascii hdigit) s
  have hlt : s.position < (s.advanceWhile input fun c => isDigit c || decide (c = '_'.toNat)).position :=
    advanceWhile_lt (peek_byte rfl (peek_class (by decide) hc)) (by simpa using Or.inl hc)
  obtain ⟨s₁,h1,hs1,hp1⟩ := checkLeadingZero_ok hb (hone.boundary hb) hone.le
  have h2 := lexFraction_steps input s₁
  have h3 := lexExponent_steps input (s₁.lexFraction input).1
  have hle2 := h2.le
  have hle3 := h3.le
  simp only [lexDecimal,h1,ok_bind]
  exact ⟨_,_,rfl,((hone.trans hs1).trans h2).trans h3,by omega⟩

theorem lexDigits_ok (hb : Boundary input.bytes s.position) (hc : isDigit (s.peek input 0) = true) :
    ∃ s' isFloat, s.lexDigits input s.position = .ok (s',isFloat) ∧ Steps input s s' ∧
      s.position < s'.position := by
  -- each prefix is a zero and one of two letters
  have hprefix : ∀ {c d : Char} (f : Lexer → ℕ → Except Stop Lexer),
      (∀ {x y : ℕ}, s.peek input 0 = x → s.peek input 1 = y → x ≠ 0 → y ≠ 0 → x < 0x80 → y < 0x80 →
        ∃ s', f s s.position = .ok s' ∧ Steps input s s' ∧ s.position < s'.position) →
      (0 < c.toNat ∧ c.toNat < 0x80) → (0 < d.toNat ∧ d.toNat < 0x80) →
      s.peek input 0 = '0'.toNat ∧ (s.peek input 1 = c.toNat ∨ s.peek input 1 = d.toNat) →
      ∃ s' isFloat, (f s s.position).map (fun s => (s,false)) = .ok (s',isFloat) ∧ Steps input s s' ∧
        s.position < s'.position := by
    intro c d f hf hcr hdr h
    obtain ⟨s',hok,hrest⟩ : ∃ s', f s s.position = .ok s' ∧ Steps input s s' ∧ s.position < s'.position := by
      rcases h.2 with h2 | h2
      · exact hf h.1 h2 (by decide) (by omega) (by decide) hcr.2
      · exact hf h.1 h2 (by decide) (by omega) (by decide) hdr.2
    exact ⟨s',false,by rw [hok]; rfl,hrest⟩
  unfold lexDigits
  dsimp only
  split
  · rename_i h
    exact hprefix (fun s => s.lexRadix input isHexDigit hexadecimalMessage)
      (lexRadix_ok (fun _ => isHexDigit_ascii) hexadecimalMessage hb) (by decide) (by decide) h
  · split
    · rename_i h
      refine hprefix (fun s => s.lexRadix input isBinaryDigit binaryMessage)
        (lexRadix_ok (fun b hb => ?_) binaryMessage hb) (by decide) (by decide) h
      simp [isBinaryDigit] at hb; omega
    · split
      · rename_i h
        exact hprefix (fun s => s.lexOctal input) (lexOctal_ok hb) (by decide) (by decide) h
      · exact lexDecimal_ok hb hc

theorem lexNumber_scans (hs : HolesOk s) (hb : Boundary input.bytes s.position)
    (hc : isDigit (s.peek input 0) = true) :
    ∃ s', s.lexNumber input s.position = .ok s' ∧ Scans input s s' := by
  obtain ⟨s₁,isFloat,h1,hst,hlt⟩ := lexDigits_ok hb hc
  have hsuffix : ∀ {c d : Char}, s₁.peek input 0 = c.toNat ∨ s₁.peek input 0 = d.toNat →
      (0 < c.toNat ∧ c.toNat < 0x80) → (0 < d.toNat ∧ d.toNat < 0x80) →
      ∀ {kind : SyntaxKind}, kind ≠ .endOfFile →
        Scans input s ((s₁.advance input).emit kind s.position) := by
    intro c d h hcr hdr kind hk
    have h2 := hst.trans (advance_either h hcr hdr)
    have hle := (advance_either h hcr hdr).le
    exact emit_scans h2.toAhead hs (by omega) (h2.boundary hb) hk
  simp only [lexNumber,h1,ok_bind]
  split
  · rename_i h; exact ⟨_,rfl,hsuffix h (by decide) (by decide) (by decide)⟩
  · split
    · rename_i h; exact ⟨_,rfl,hsuffix h (by decide) (by decide) (by decide)⟩
    · split
      · rename_i h; exact ⟨_,rfl,hsuffix h (by decide) (by decide) (by split <;> decide)⟩
      · exact ⟨_,rfl,emit_scans hst.toAhead hs hlt (hst.boundary hb) (by split <;> decide)⟩

/-! ### Operators -/

theorem peek_advance (h : s.position < input.length) (k : ℕ) :
    (s.advance input).peek input k = s.peek input (k + 1) := by
  rw [peek,peek,advance_position h,Nat.add_assoc,Nat.add_comm 1 k]

theorem advanceBy_steps {count : ℕ} (h : ∀ k < count, s.peek input k ≠ 0 ∧ s.peek input k < 0x80) :
    Steps input s (s.advanceBy input count) ∧ (s.advanceBy input count).position = s.position + count := by
  induction count generalizing s with
  | zero => exact ⟨Steps.refl input s,rfl⟩
  | succ count ih =>
    obtain ⟨h0,h8⟩ := h 0 (Nat.succ_pos _)
    have hpeek : s.peek input 0 = s.peek input 0 := rfl
    have hbyte := peek_byte hpeek h0
    have hlt : s.position < input.length := (List.getElem?_eq_some_iff.mp hbyte).1
    obtain ⟨hst,hpos⟩ := ih (s := s.advance input) fun k hk => by
      rw [peek_advance hlt]
      exact h (k + 1) (Nat.succ_lt_succ hk)
    rw [advance_position hlt] at hpos
    exact ⟨(advance_steps hpeek h0 h8).trans hst,by rw [advanceBy,hpos]; omega⟩

theorem consumeOperator_scans (hs : HolesOk s) (hb : Boundary input.bytes s.position) {count : ℕ}
    (h0 : 0 < count) (h : ∀ k < count, s.peek input k ≠ 0 ∧ s.peek input k < 0x80) {kind : SyntaxKind}
    (hk : kind ≠ .endOfFile) : Scans input s (s.consumeOperator input count kind s.position) := by
  obtain ⟨hst,hpos⟩ := advanceBy_steps h
  exact emit_scans hst.toAhead hs (by omega) (hst.boundary hb) hk

theorem operators_ascii : ∀ row ∈ operators, row.1 ≠ [] ∧ row.2 ≠ .endOfFile ∧
    ∀ c ∈ row.1, c.toNat ≠ 0 ∧ c.toNat < 0x80 := by
  simp [operators]

theorem singleCharacters_ascii : ∀ row ∈ singleCharacters, row.2 ≠ .endOfFile ∧
    row.1.toNat ≠ 0 ∧ row.1.toNat < 0x80 := by
  simp [singleCharacters]

theorem singleCharacterKind_ascii {c : ℕ} {kind : SyntaxKind} (h : singleCharacterKind c = some kind) :
    kind ≠ .endOfFile ∧ c ≠ 0 ∧ c < 0x80 := by
  obtain ⟨row,hf,rfl⟩ := Option.map_eq_some_iff.mp h
  have hc := List.find?_some hf
  have hc : row.1.toNat = c := by simpa using hc
  have := singleCharacters_ascii row (List.mem_of_find?_eq_some hf)
  exact ⟨this.1,by omega,by omega⟩

theorem startsWith_peek {operator : List Char} (h : s.startsWith input operator = true)
    (hascii : ∀ c ∈ operator, c.toNat ≠ 0 ∧ c.toNat < 0x80) :
    ∀ k < operator.length, s.peek input k ≠ 0 ∧ s.peek input k < 0x80 := by
  intro k hk
  have he := congrArg (fun l => l[k]?) (of_decide_eq_true h)
  have he : s.peek input k = operator[k].toNat := by simpa [hk] using he
  rw [he]
  exact hascii _ (List.getElem_mem hk)

/-- No token begins with a byte that is of none of the classes. -/
def BeginsNone (c : ℕ) : Prop :=
  isSpace c = false ∧ isLineEnd c = false ∧ isDigit c = false ∧ isIdentifierStart c = false ∧
    c ≠ '"'.toNat ∧ c ≠ '\''.toNat

theorem refusedLength_ne_zero {c : ℕ} (hc : input.bytes[i]? = some c) (hn : BeginsNone c)
    (hk : singleCharacterKind c = none) : refusedLength input i ≠ 0 := by
  obtain ⟨hlt,hget⟩ := List.getElem?_eq_some_iff.mp hc
  obtain ⟨h1,h2,h3,h4,h5,h6⟩ := hn
  simp only [refusedLength,List.drop_eq_getElem_cons hlt,hget,h1,h2,h3,h4,h5,h6,hk,decide_false,
    Bool.or_false,Option.isSome_none,Bool.false_eq_true,if_false]
  omega

theorem lexInvalidCharacter_scans (hs : HolesOk s) (hb : Boundary input.bytes s.position)
    (hr : refusedLength input s.position ≠ 0) :
    ∃ s', s.lexInvalidCharacter input s.position = .ok s' ∧ Scans input s s' := by
  obtain ⟨runEnd,hrun,hle,hbr,hne⟩ := refusedRunEnd_ok hb
  obtain ⟨s₁,h1,hs1,hp1⟩ := advanceTo_ok (s := s) hbr hle
  obtain ⟨s₂,h2,hs2,hp2⟩ := reportRefused_ok (s := s₁) hb (hs1.boundary hb) hs1.le
  have hst := hs1.trans hs2
  have hlt : s.position ≠ runEnd := fun he => hr (hne he.symm)
  refine ⟨s₂.emit .invalid s.position,by simp only [lexInvalidCharacter,hrun,h1,h2,ok_bind],?_⟩
  exact emit_scans hst.toAhead hs (by omega) (hst.boundary hb) (by decide)

theorem lexOperator_scans (hs : HolesOk s) (hb : Boundary input.bytes s.position)
    (hlt : s.position < input.length)
    (hn : BeginsNone (s.peek input 0) ∨ (singleCharacterKind (s.peek input 0)).isSome = true) :
    ∃ s', s.lexOperator input s.position = .ok s' ∧ Scans input s s' := by
  unfold lexOperator
  split
  · rename_i operator kind hf
    obtain ⟨hne,hk,hascii⟩ := operators_ascii _ (List.mem_of_find?_eq_some hf)
    have hst := List.find?_some hf
    exact ⟨_,rfl,consumeOperator_scans hs hb (List.length_pos_of_ne_nil hne)
      (startsWith_peek hst hascii) hk⟩
  · split
    · rename_i kind hk
      obtain ⟨hkind,h0,h8⟩ := singleCharacterKind_ascii hk
      refine ⟨_,rfl,consumeOperator_scans hs hb Nat.one_pos (fun k hk => ?_) hkind⟩
      obtain rfl : k = 0 := by omega
      exact ⟨h0,h8⟩
    · rename_i hk
      have hn := hn.resolve_right (by simp [hk])
      exact lexInvalidCharacter_scans hs hb (refusedLength_ne_zero (peek_zero_byte hlt) hn hk)

end Lexer
end Ens.Lex
