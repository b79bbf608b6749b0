import Mathlib.Data.List.Induction
import Ens.Lex.Within

/-! # What a scan reports

A literal or a block comment whose end the lexer does not find is reported as not closed, over its whole span and after whatever is reported
inside it. That the end is missing can be read off the text of the piece alone.
-/
set_option linter.all false
namespace Ens.Lex
open Loop Utf8
variable {input : Text} {quote b c i j k : ℕ} {w rest : List ℕ}

/-! ### The text of a literal -/

def trailing (w : List ℕ) : ℕ := (w.reverse.takeWhile fun b => decide (b = '\\'.toNat)).length

theorem trailing_concat (w : List ℕ) (b : ℕ) : trailing (w ++ [b]) = if b = '\\'.toNat then trailing w + 1 else 0 := by
  rw [trailing,List.reverse_concat]
  split_ifs with hb
  · rw [List.takeWhile_cons_of_pos (p := fun b => decide (b = '\\'.toNat)) (decide_eq_true hb),List.length_cons,trailing]
  · rw [List.takeWhile_cons_of_neg (p := fun b => decide (b = '\\'.toNat)) (by rw [decide_eq_false hb]; exact Bool.false_ne_true)]
    rfl

inductive Body (quote : ℕ) : List ℕ → Prop
  | nil : Body quote []
  | plain {w : List ℕ} {b : ℕ} : Body quote w → b ≠ quote → b ≠ '\\'.toNat → Body quote (w ++ [b])
  | escape {w : List ℕ} {c : ℕ} : Body quote w → Body quote (w ++ ['\\'.toNat,c])

/-- No quote ends the text, but one that is escaped. -/
def Unended (quote : ℕ) (w : List ℕ) : Prop := w.getLast? = some quote → trailing w.dropLast % 2 = 1

instance : Decidable (Unended quote w) := inferInstanceAs (Decidable (_ → _))

theorem concat_two (w : List ℕ) (b c : ℕ) : w ++ [b,c] = (w ++ [b]) ++ [c] := by rw [List.append_assoc]; rfl

theorem Body.even (h : Body quote w) : trailing w % 2 = 0 := by
  induction h with
  | nil => rfl
  | plain _ _ hb _ => rw [trailing_concat,if_neg hb]
  | @escape w c _ ih =>
    rw [concat_two,trailing_concat,trailing_concat,if_pos rfl]
    split_ifs <;> omega

theorem Body.unended (h : Body quote w) : Unended quote w := by
  intro hlast
  cases h with
  | nil => cases hlast
  | plain _ hq _ =>
    rw [List.getLast?_concat] at hlast
    exact absurd (Option.some.inj hlast) hq
  | @escape w c h =>
    have heven := h.even
    rw [concat_two,List.dropLast_concat,trailing_concat,if_pos rfl]
    omega

theorem Body.ended (h : Body quote w) : ¬Unended quote (w ++ [quote]) := by
  intro hopen
  have hodd := hopen List.getLast?_concat
  rw [List.dropLast_concat] at hodd
  have heven := h.even
  omega

theorem cut_unended (hq : quote ≠ '\\'.toNat) (w : List ℕ) : Unended quote (w ++ ['\\'.toNat]) := by
  intro hlast
  rw [List.getLast?_concat] at hlast
  exact absurd (Option.some.inj hlast).symm hq

theorem Body.bytes (h : Body quote w) (hr : ∀ b ∈ rest, b ≠ quote ∧ b ≠ '\\'.toNat) : Body quote (w ++ rest) := by
  induction rest using List.reverseRecOn with
  | nil => rwa [List.append_nil]
  | append_singleton rest b ih =>
    rw [← List.append_assoc]
    have hb := hr b (List.mem_append_right _ (List.mem_singleton_self b))
    exact .plain (ih fun b hb => hr b (List.mem_append_left _ hb)) hb.1 hb.2

/-! ### Reports between two places -/

/-- The bytes of a source from one place to another. -/
def slice (input : Text) (i j : ℕ) : List ℕ := (input.bytes.take j).drop i

theorem slice_self (input : Text) (i : ℕ) : slice input i i = [] :=
  List.drop_eq_nil_of_le (by rw [List.length_take]; exact Nat.min_le_left _ _)

theorem slice_after_two {d n : ℕ} (hc : input.bytes[i]? = some c) (hd : input.bytes[i + 1]? = some d) :
    slice input i (i + 2 + n) = c :: d :: (input.bytes.drop (i + 2)).take n := by
  rw [slice,List.drop_take,drop_of_byte hc,drop_of_byte hd,show i + 2 + n - i = n + 2 by omega]
  rfl

theorem slice_byte {m : ℕ} (hm : i + m < j) : (slice input i j)[m]? = input.bytes[i + m]? := by
  rw [slice,List.getElem?_drop,List.getElem?_take_of_lt hm]

/-! ### What is refused inside a literal -/

/-- A backslash before what is no escape. -/
def RefusedEscape (input : Text) (i : ℕ) : Prop :=
  i + 1 < input.length ∧ ¬isSimpleEscape (byteAt input (i + 1)) = true ∧
    ¬(byteAt input (i + 1) = 'u'.toNat ∧ isHexDigit (byteAt input (i + 2)) = true ∧ isHexDigit (byteAt input (i + 3)) = true ∧
      isHexDigit (byteAt input (i + 4)) = true ∧ isHexDigit (byteAt input (i + 5)) = true)

/-- A place where a literal has a wrong escape, or a string a brace that begins no hole. -/
def RefusedAt (input : Text) (inString : Bool) (i : ℕ) : Prop :=
  (byteAt input i = '\\'.toNat ∧ RefusedEscape input i) ∨
    (inString = true ∧ byteAt input i = '{'.toNat ∧ holeEndOnLine input (i + 1) = .ok LineEnd.insideLiteral)

/-- Something is refused from one place to another that no backslash escapes. -/
def Refuses (input : Text) (inString : Bool) (lo hi : ℕ) : Prop :=
  ∃ i, lo ≤ i ∧ i < hi ∧ trailing (slice input lo i) % 2 = 0 ∧ RefusedAt input inString i

theorem not_refuses_self (input : Text) (inString : Bool) (lo : ℕ) : ¬Refuses input inString lo lo :=
  fun ⟨_,hle,hlt,_⟩ => absurd hlt (Nat.not_lt_of_le hle)

theorem refuses_step {inString : Bool} {lo : ℕ} (hle : lo ≤ j) (hlt : j < k) (heven : trailing (slice input lo j) % 2 = 0)
    (hrest : ∀ i, j < i → i < k → trailing (slice input lo i) % 2 = 0 → ¬RefusedAt input inString i) :
    Refuses input inString lo k ↔ Refuses input inString lo j ∨ RefusedAt input inString j := by
  constructor
  · rintro ⟨i,hi,hik,htrail,hat⟩
    rcases Nat.lt_trichotomy i j with hij | rfl | hji
    · exact .inl ⟨i,hi,hij,htrail,hat⟩
    · exact .inr hat
    · exact absurd hat (hrest i hji hik htrail)
  · rintro (⟨i,hi,hij,htrail,hat⟩ | hat)
    · exact ⟨i,hi,Nat.lt_trans hij hlt,htrail,hat⟩
    · exact ⟨j,hle,hlt,heven,hat⟩

theorem not_refusedAt {inString : Bool} (hslash : byteAt input i ≠ '\\'.toNat) (hbrace : inString = true → byteAt input i ≠ '{'.toNat) :
    ¬RefusedAt input inString i := by
  rintro (⟨h,-⟩ | ⟨hs,h,-⟩)
  · exact hslash h
  · exact hbrace hs h

namespace Lexer
variable {s s' s₁ s₂ : Lexer} {lo mid hi : ℕ} {inString : Bool}

/-- What is reported from one state to the next starts between two places, in order. -/
def Reports (lo hi : ℕ) (s s' : Lexer) : Prop :=
  ∃ ds, s'.diagnostics = s.diagnostics ++ ds ∧ (∀ d ∈ ds, lo ≤ d.start ∧ d.start < hi) ∧ ds.Pairwise fun d e => d.start ≤ e.start

theorem Reports.of_eq (h : s'.diagnostics = s.diagnostics) : Reports lo hi s s' :=
  ⟨[],by rw [h,List.append_nil],fun d hd => absurd hd List.not_mem_nil,List.Pairwise.nil⟩

theorem Reports.trans (h : Reports lo mid s s₁) (h' : Reports mid hi s₁ s₂) (hlo : lo ≤ mid) (hhi : mid ≤ hi) : Reports lo hi s s₂ := by
  obtain ⟨ds,hds,hin,hsorted⟩ := h
  obtain ⟨es,hes,hin',hsorted'⟩ := h'
  refine ⟨ds ++ es,by rw [hes,hds,List.append_assoc],fun d hd => ?_,List.pairwise_append.mpr ⟨hsorted,hsorted',fun d hd e he => ?_⟩⟩
  · rcases List.mem_append.mp hd with hd | hd
    · exact ⟨(hin d hd).1,Nat.lt_of_lt_of_le (hin d hd).2 hhi⟩
    · exact ⟨Nat.le_trans hlo (hin' d hd).1,(hin' d hd).2⟩
  · exact Nat.le_of_lt (Nat.lt_of_lt_of_le (hin d hd).2 (hin' e he).1)

theorem Reports.one (hd : s₁.diagnostics = s.diagnostics) (message : List ℕ) (hlo : lo ≤ i) (hhi : i < hi) :
    Reports lo hi s (s₁.report message i j) := by
  refine ⟨[⟨message,i,j - i⟩],by rw [report,hd],fun d hm => ?_,List.pairwise_singleton _ _⟩
  rw [List.mem_singleton.mp hm]
  exact ⟨hlo,hhi⟩

theorem Reports.quiet (h : Reports lo mid s s₁) (h' : Reports mid hi s₁ s₂) :
    s₂.diagnostics = s.diagnostics ↔ s₁.diagnostics = s.diagnostics ∧ s₂.diagnostics = s₁.diagnostics := by
  obtain ⟨ds,hds,-⟩ := h
  obtain ⟨es,hes,-⟩ := h'
  rw [hes,List.append_right_eq_self,hds,List.append_assoc,List.append_right_eq_self,List.append_right_eq_self,List.append_eq_nil_iff]

theorem report_loud (hd : s₁.diagnostics = s.diagnostics) (message : List ℕ) : (s₁.report message i j).diagnostics ≠ s.diagnostics := by
  rw [report]
  dsimp only
  rw [hd]
  exact fun h => List.cons_ne_nil _ _ (List.append_right_eq_self.mp h)

/-! ### Escapes -/

/-- A backslash that ends the source, or one with the byte it escapes and what belongs to this. -/
def Escaped (input : Text) (i j : ℕ) : Prop :=
  (j = input.length ∧ slice input i j = ['\\'.toNat]) ∨
    ∃ c rest, slice input i j = '\\'.toNat :: c :: rest ∧ ∀ b ∈ rest, isHexDigit b = true ∨ isContinuationByte b = true

theorem consumeEscape_reads (inString : Bool) (hc : s.peek input 0 = '\\'.toNat) (h : s.consumeEscape input inString = .ok s') :
    Reports s.position s'.position s s' ∧ Escaped input s.position s'.position ∧
      (s'.diagnostics = s.diagnostics ↔ ¬RefusedEscape input s.position) := by
  have hbyte : input.bytes[s.position]? = some '\\'.toNat := peek_byte hc (by decide)
  have hlt : s.position < input.length := (List.getElem?_eq_some_iff.mp hbyte).1
  have hpos := advance_position hlt
  have hdiag := advance_diagnostics input s
  unfold consumeEscape at h
  dsimp only at h
  split at h
  · rename_i hend
    cases h
    have hle := atEnd_eq_true.mp hend
    exact ⟨.of_eq hdiag,.inl ⟨by omega,by rw [hpos]; exact slice_one hbyte⟩,
      iff_of_true hdiag fun h => absurd h.1 (Nat.not_lt_of_le (hpos ▸ hle))⟩
  · rename_i hend
    have hlt1 := atEnd_eq_false.mp (Bool.eq_false_iff.mpr hend)
    have hesc := peek_zero_byte hlt1
    have hpos2 : ((s.advance input).advance input).position = s.position + 2 := by rw [advance_position hlt1,hpos]
    have hdiag2 : ((s.advance input).advance input).diagnostics = s.diagnostics := (advance_diagnostics input _).trans hdiag
    have hpeek : (s.advance input).peek input 0 = byteAt input (s.position + 1) := by rw [peek,hpos]
    have hpeek2 : ∀ k, ((s.advance input).advance input).peek input k = byteAt input (s.position + 2 + k) := fun k => by rw [peek,hpos2]
    rw [hpos] at hesc
    have hslice : ∀ n, slice input s.position (s.position + 2 + n) =
        '\\'.toNat :: (s.advance input).peek input 0 :: (input.bytes.drop (s.position + 2)).take n := fun n => slice_after_two hbyte hesc
    split at h
    · rename_i hsimple
      cases h
      exact ⟨.of_eq hdiag2,.inr ⟨_,[],by rw [hpos2]; exact hslice 0,fun b hb => absurd hb List.not_mem_nil⟩,
        iff_of_true hdiag2 fun h => h.2.1 (hpeek ▸ hsimple)⟩
    · rename_i hsimple
      rw [hpeek] at hsimple
      split at h
      · rename_i hu
        split at h
        · rename_i hhex
          have hub : input.bytes[s.position + 1]? = some 'u'.toNat := by rw [hesc,hu]
          obtain ⟨h4,-⟩ := hexDigits_ok hbyte hub rfl hpos2 hhex
          obtain ⟨-,hp6⟩ := advanceBy_steps h4
          cases h
          have hp : ((((((s.advance input).advance input).advance input).advance input).advance input).advance input).position =
              s.position + 2 + 4 := by
            rw [← hpos2]
            exact hp6
          have hquiet : ((((((s.advance input).advance input).advance input).advance input).advance input).advance input).diagnostics =
              s.diagnostics := by simp only [advance_diagnostics]
          refine ⟨.of_eq hquiet,.inr ⟨(s.advance input).peek input 0,(input.bytes.drop (s.position + 2)).take 4,?_,fun b hb => .inl ?_⟩,
            iff_of_true hquiet fun h => h.2.2 ⟨hpeek ▸ hu,?_⟩⟩
          · rw [hp]
            exact hslice 4
          swap
          · rw [hpeek2,hpeek2,hpeek2,hpeek2] at hhex
            exact hhex
          obtain ⟨k,hk,rfl⟩ := List.getElem_of_mem hb
          have hin := hk
          rw [List.length_take,List.length_drop] at hin
          have hk4 : k < 4 := by omega
          have hlt2 : s.position + 2 + k < input.bytes.length := by omega
          rw [List.getElem_take,List.getElem_drop]
          have hpeek : ((s.advance input).advance input).peek input k = input.bytes[s.position + 2 + k] := by
            rw [peek,hpos2]
            exact byteAt_some (List.getElem?_eq_getElem _)
          rw [← hpeek]
          obtain ⟨h0,h1,h2,h3⟩ := hhex
          rcases (by omega : k = 0 ∨ k = 1 ∨ k = 2 ∨ k = 3) with rfl | rfl | rfl | rfl
          · exact h0
          · exact h1
          · exact h2
          · exact h3
        · rename_i hhex
          rw [hpeek2,hpeek2,hpeek2,hpeek2] at hhex
          obtain ⟨u,-,h⟩ := bind_ok h
          cases h
          exact ⟨.one hdiag2 _ (Nat.le_refl _) (by rw [report_position,hpos2]; omega),
            .inr ⟨_,[],by rw [report_position,hpos2]; exact hslice 0,fun b hb => absurd hb List.not_mem_nil⟩,
            iff_of_false (report_loud hdiag2 _) (not_not_intro ⟨hpos ▸ hlt1,hsimple,fun h => hhex h.2⟩)⟩
      · -- the bytes that continue the character after the backslash
        rename_i hu
        rw [hpeek] at hu
        have hrefused : RefusedEscape input s.position := ⟨hpos ▸ hlt1,hsimple,fun h => hu h.1⟩
        rw [hpos2] at h
        generalize hr : ((input.bytes.drop (s.position + 2)).take
          (utf8SequenceLength ((s.advance input).peek input 0) - 1)).takeWhile isContinuationByte = r at h
        have hprefix : r <+: input.bytes.drop (s.position + 2) := hr ▸ (List.takeWhile_prefix _).trans (List.take_prefix _ _)
        have hrest := List.prefix_iff_eq_take.mp hprefix
        have hinside : ∀ b ∈ r, isHexDigit b = true ∨ isContinuationByte b = true := fun b hb =>
          .inr (List.mem_takeWhile_imp (hr ▸ hb))
        obtain ⟨u,-,h⟩ := bind_ok h
        obtain ⟨v,-,h⟩ := bind_ok h
        split at h <;> cases h
        · exact ⟨.one hdiag2 _ (Nat.le_refl _) (by rw [report_position]; dsimp only; omega),
            .inr ⟨_,r,by rw [report_position,hslice,← hrest],hinside⟩,iff_of_false (report_loud (by exact hdiag2) _) (not_not_intro hrefused)⟩
        · exact ⟨.one hdiag2 _ (Nat.le_refl _) (by rw [report_position]; dsimp only; omega),
            .inr ⟨_,r,by rw [report_position,hslice,← hrest],hinside⟩,iff_of_false (report_loud (by exact hdiag2) _) (not_not_intro hrefused)⟩

/-! ### Literals -/

structure Read (input : Text) (inString : Bool) (quote : ℕ) (s s' : Lexer) : Prop where
  ahead : Ahead input s s'
  reports : Reports s.position s'.position s s'
  quiet : s'.diagnostics = s.diagnostics ↔ ¬Refuses input inString s.position s'.position
  body : Body quote (slice input s.position s'.position) ∨
    s'.position = input.length ∧ ∃ w, slice input s.position s'.position = w ++ ['\\'.toNat]

/-- The quotes that end a literal. -/
def IsQuote (quote : ℕ) : Prop := quote = '"'.toNat ∨ quote = '\''.toNat

theorem IsQuote.ne (hq : IsQuote quote) : quote ≠ '\\'.toNat := by
  rcases hq with rfl | rfl <;> decide

theorem Read.refl (input : Text) (inString : Bool) (quote : ℕ) (s : Lexer) : Read input inString quote s s :=
  ⟨Ahead.refl input s,.of_eq rfl,iff_of_true rfl (not_refuses_self input inString s.position),.inl (by rw [slice_self]; exact .nil)⟩

theorem Read.body_of_lt (h : Read input inString quote s s') (hlt : s'.position < input.length) : Body quote (slice input s.position s'.position) :=
  h.body.resolve_right fun hend => absurd hend.1 (Nat.ne_of_lt hlt)

theorem Read.unended (hq : IsQuote quote) (h : Read input inString quote s s') : Unended quote (slice input s.position s'.position) := by
  rcases h.body with hb | ⟨-,w,hw⟩
  · exact hb.unended
  · rw [hw]
    exact cut_unended hq.ne w

theorem Read.closes (h : Read input inString quote s s') (hb : input.bytes[s'.position]? = some quote) :
    ¬Unended quote (slice input s.position (s'.position + 1)) := by
  have hlt : s'.position < input.length := (List.getElem?_eq_some_iff.mp hb).1
  rw [slice,slice_append h.ahead.le (Nat.le_succ _),slice_one hb]
  exact (h.body_of_lt hlt).ended

theorem Read.step (h : Read input inString quote s s₁) (hb : input.bytes[s₁.position]? = some b) (hne : b ≠ quote) (hne' : b ≠ '\\'.toNat)
    (ha : Ahead input s₁ s₂) (hpos : s₂.position = s₁.position + 1) (hr : Reports s₁.position s₂.position s₁ s₂)
    (hq : s₂.diagnostics = s₁.diagnostics ↔ ¬RefusedAt input inString s₁.position) : Read input inString quote s s₂ := by
  have hlt : s₁.position < input.length := (List.getElem?_eq_some_iff.mp hb).1
  have hrefuses : Refuses input inString s.position (s₁.position + 1) ↔ _ := refuses_step h.ahead.le (Nat.lt_succ_self s₁.position)
    (h.body_of_lt hlt).even fun i hi hik => absurd hik (Nat.not_lt_of_le hi)
  refine ⟨h.ahead.trans ha,h.reports.trans hr h.ahead.le ha.le,by rw [h.reports.quiet hr,h.quiet,hq,hpos,hrefuses,not_or],.inl ?_⟩
  rw [hpos,slice,slice_append h.ahead.le (Nat.le_succ _),slice_one hb]
  exact .plain (h.body_of_lt hlt) hne hne'

theorem hex_or_inside (hq : IsQuote quote) (hb : isHexDigit b = true ∨ isContinuationByte b = true) : b ≠ quote ∧ b ≠ '\\'.toNat := by
  have hclass : ∀ c, IsQuote c ∨ c = '\\'.toNat → ¬(isHexDigit c = true ∨ isContinuationByte c = true) := by
    rintro c ((rfl | rfl) | rfl) <;> decide
  exact ⟨fun heq => hclass b (.inl (heq ▸ hq)) hb,fun heq => hclass b (.inr heq) hb⟩

theorem Escaped.clear (h : Escaped input j k) (hle : lo ≤ j) (heven : trailing (slice input lo j) % 2 = 0)
    (hb : input.bytes[j]? = some '\\'.toNat) :
    ∀ i, j < i → i < k → trailing (slice input lo i) % 2 = 0 → ¬RefusedAt input inString i := by
  intro i hji hik htrail
  rcases Nat.lt_or_eq_of_le hji with hlt | rfl
  · rcases h with ⟨-,hslice⟩ | ⟨c,rest,hslice,hrest⟩
    · have hbyte : (slice input j k)[i - j]? = input.bytes[j + (i - j)]? := slice_byte (by omega)
      rw [hslice,List.getElem?_eq_none (by rw [List.length_singleton]; omega),show j + (i - j) = i by omega] at hbyte
      have hzero : byteAt input i = 0 := by rw [byteAt,List.getD_eq_getElem?_getD,← hbyte]; rfl
      exact not_refusedAt (by rw [hzero]; decide) fun _ => by rw [hzero]; decide
    · have hbyte : (slice input j k)[i - j]? = input.bytes[j + (i - j)]? := slice_byte (by omega)
      rw [hslice,show i - j = i - j - 2 + 1 + 1 by omega,List.getElem?_cons_succ,List.getElem?_cons_succ,
        show j + (i - j - 2 + 1 + 1) = i by omega] at hbyte
      cases hb' : rest[i - j - 2]? with
      | none =>
        have hzero : byteAt input i = 0 := by rw [byteAt,List.getD_eq_getElem?_getD,← hbyte,hb']; rfl
        exact not_refusedAt (by rw [hzero]; decide) fun _ => by rw [hzero]; decide
      | some b =>
        have hclass : ∀ c, c = '\\'.toNat ∨ c = '{'.toNat → ¬(isHexDigit c = true ∨ isContinuationByte c = true) := by
          rintro c (rfl | rfl) <;> decide
        have hin := hrest b (List.mem_of_getElem? hb')
        have hat : byteAt input i = b := byteAt_some (hbyte.symm.trans hb')
        exact not_refusedAt (fun h => hclass _ (.inl h) (hat.symm ▸ hin)) fun _ h => hclass _ (.inr h) (hat.symm ▸ hin)
  · rw [slice,slice_append hle (Nat.le_succ j),slice_one hb,trailing_concat,if_pos rfl] at htrail
    rw [slice] at heven
    omega

theorem Read.escape (hq : IsQuote quote) (h : Read input inString quote s s₁) (hc : s₁.peek input 0 = '\\'.toNat)
    (hok : s₁.consumeEscape input inString = .ok s₂) : Read input inString quote s s₂ := by
  have hbyte : input.bytes[s₁.position]? = some '\\'.toNat := peek_byte hc (by decide)
  have hlt : s₁.position < input.length := (List.getElem?_eq_some_iff.mp hbyte).1
  obtain ⟨s₃,h3,ha,hlt3,-⟩ := consumeEscape_ok inString hc
  obtain rfl : s₃ = s₂ := Except.ok.inj (h3.symm.trans hok)
  obtain ⟨hr,hesc,hquiet⟩ := consumeEscape_reads inString hc hok
  have hbody := h.body_of_lt hlt
  have hsplit : slice input s.position s₃.position = slice input s.position s₁.position ++ slice input s₁.position s₃.position :=
    slice_append h.ahead.le ha.le
  have hat : RefusedEscape input s₁.position ↔ RefusedAt input inString s₁.position := by
    rw [peek,Nat.add_zero] at hc
    refine ⟨fun h => .inl ⟨hc,h⟩,?_⟩
    rintro (⟨-,h⟩ | ⟨-,hbrace,-⟩)
    · exact h
    · rw [hc] at hbrace
      exact absurd hbrace (by decide)
  have hrefuses : Refuses input inString s.position s₃.position ↔ _ :=
    refuses_step h.ahead.le hlt3 hbody.even (hesc.clear h.ahead.le hbody.even hbyte)
  refine ⟨h.ahead.trans ha,h.reports.trans hr h.ahead.le ha.le,by rw [h.reports.quiet hr,h.quiet,hquiet,hat,hrefuses,not_or],?_⟩
  rw [hsplit]
  rcases hesc with ⟨hend,hslice⟩ | ⟨c,rest,hslice,hrest⟩
  · rw [hslice]
    exact .inr ⟨hend,_,rfl⟩
  · rw [hslice,show '\\'.toNat :: c :: rest = ['\\'.toNat,c] ++ rest from rfl,← List.append_assoc]
    exact .inl (hbody.escape.bytes fun b hb => hex_or_inside hq (hrest b hb))

theorem stringLoop_reads (hs : s.position ≤ input.length) {r : Lexer × BodyEnd} (h : s.stringLoop input = .ok r) :
    Reports s.position r.1.position s r.1 ∧
      (r.2 = .closed → ¬Unended '"'.toNat (slice input s.position r.1.position)) ∧
      (r.2 = .line → Unended '"'.toNat (slice input s.position r.1.position) ∧
        (r.1.diagnostics = s.diagnostics ↔ ¬Refuses input true s.position r.1.position)) := by
  have hq : IsQuote '"'.toNat := .inl rfl
  suffices hrun : ∃ r, s.stringLoop input = .ok r ∧ (Reports s.position r.1.position s r.1 ∧
      (r.2 = .closed → ¬Unended '"'.toNat (slice input s.position r.1.position)) ∧
      (r.2 = .line → Unended '"'.toNat (slice input s.position r.1.position) ∧
        (r.1.diagnostics = s.diagnostics ↔ ¬Refuses input true s.position r.1.position))) by
    obtain ⟨r',hr',hpost⟩ := hrun
    obtain rfl : r' = r := Except.ok.inj (hr'.symm.trans h)
    exact hpost
  refine loop_ok (I := Read input true '"'.toNat s) (fun s => input.length - s.position) (fun s' hread => ?_) (Read.refl input true _ s) (by omega)
  by_cases hend : s'.atEnd input = true
  · exact .inl ⟨(s',.line),by rw [if_pos hend],hread.reports,nofun,fun _ => ⟨hread.unended hq,hread.quiet⟩⟩
  · rw [if_neg hend]
    have hlt := atEnd_eq_false.mp (Bool.eq_false_iff.mpr hend)
    have hbyte := peek_zero_byte hlt
    have hpos := advance_position hlt
    have hadv : Reports s.position (s'.advance input).position s (s'.advance input) :=
      hread.reports.trans (.of_eq (advance_diagnostics input s')) hread.ahead.le (advance_ahead input s').le
    dsimp only
    by_cases hquote : s'.peek input 0 = '"'.toNat
    · rw [if_pos hquote]
      rw [hquote] at hbyte
      refine .inl ⟨_,rfl,hadv,fun _ => ?_,nofun⟩
      dsimp only
      rw [hpos]
      exact hread.closes hbyte
    · rw [if_neg hquote]
      by_cases ho : s'.peek input 0 = '{'.toNat
      · rw [if_pos ho]
        obtain ⟨stop,hstop⟩ := holeEndOnLine_ok input (s'.position + 1)
        rw [hstop,ok_bind]
        by_cases hin : stop = LineEnd.insideLiteral
        · have hpos' : ((s'.report braceMessage s'.position (s'.position + 1)).advance input).position = s'.position + 1 :=
            advance_position hlt
          have hr : Reports s'.position ((s'.report braceMessage s'.position (s'.position + 1)).advance input).position s'
              ((s'.report braceMessage s'.position (s'.position + 1)).advance input) := by
            rw [hpos']
            refine (Reports.one rfl braceMessage (Nat.le_refl _) (Nat.lt_succ_self _)).trans (.of_eq (advance_diagnostics input _)) (Nat.le_succ _)
              (Nat.le_refl _)
          have hloud : ((s'.report braceMessage s'.position (s'.position + 1)).advance input).diagnostics ≠ s'.diagnostics := by
            rw [advance_diagnostics]
            exact report_loud rfl braceMessage
          refine .inr ⟨_,by rw [if_pos hin],hread.step hbyte hquote (by rw [ho]; decide)
            ((report_ahead s' braceMessage s'.position (s'.position + 1)).trans (advance_ahead input _)) hpos' hr
              (iff_of_false hloud (not_not_intro (.inr ⟨rfl,ho,hin ▸ hstop⟩))),by omega⟩
        · exact .inl ⟨(s'.advance input,.hole),by rw [if_neg hin],hadv,nofun,nofun⟩
      · rw [if_neg ho]
        by_cases hl : isLineEnd (s'.peek input 0) = true
        · rw [if_pos hl]
          exact .inl ⟨_,rfl,hread.reports,nofun,fun _ => ⟨hread.unended hq,hread.quiet⟩⟩
        · rw [if_neg hl]
          by_cases hb : s'.peek input 0 = '\\'.toNat
          · obtain ⟨s₁,h1,ha1,hlt1,-⟩ := consumeEscape_ok true hb
            rw [if_pos hb,h1,ok_bind]
            exact .inr ⟨s₁,rfl,hread.escape hq hb h1,by omega⟩
          · rw [if_neg hb]
            exact .inr ⟨_,rfl,hread.step hbyte hquote hb (advance_ahead input s') hpos (.of_eq (advance_diagnostics input s'))
              (iff_of_true (advance_diagnostics input s') (not_refusedAt hb fun _ => ho)),by omega⟩

theorem characterLoop_reads (hs : s.position ≤ input.length) {r : Lexer × Bool} (h : s.characterLoop input = .ok r) :
    Reports s.position r.1.position s r.1 ∧
      (r.2 = true → ¬Unended '\''.toNat (slice input s.position r.1.position)) ∧
      (r.2 = false → Unended '\''.toNat (slice input s.position r.1.position) ∧
        (r.1.diagnostics = s.diagnostics ↔ ¬Refuses input false s.position r.1.position)) := by
  have hq : IsQuote '\''.toNat := .inr rfl
  suffices hrun : ∃ r, s.characterLoop input = .ok r ∧ (Reports s.position r.1.position s r.1 ∧
      (r.2 = true → ¬Unended '\''.toNat (slice input s.position r.1.position)) ∧
      (r.2 = false → Unended '\''.toNat (slice input s.position r.1.position) ∧
        (r.1.diagnostics = s.diagnostics ↔ ¬Refuses input false s.position r.1.position))) by
    obtain ⟨r',hr',hpost⟩ := hrun
    obtain rfl : r' = r := Except.ok.inj (hr'.symm.trans h)
    exact hpost
  refine loop_ok (I := Read input false '\''.toNat s) (fun s => input.length - s.position) (fun s' hread => ?_) (Read.refl input false _ s) (by omega)
  by_cases hend : s'.atEnd input = true
  · exact .inl ⟨(s',false),by rw [if_pos hend],hread.reports,nofun,fun _ => ⟨hread.unended hq,hread.quiet⟩⟩
  · rw [if_neg hend]
    have hlt := atEnd_eq_false.mp (Bool.eq_false_iff.mpr hend)
    have hbyte := peek_zero_byte hlt
    have hpos := advance_position hlt
    dsimp only
    by_cases hquote : s'.peek input 0 = '\''.toNat
    · rw [if_pos hquote]
      rw [hquote] at hbyte
      refine .inl ⟨_,rfl,hread.reports.trans (.of_eq (advance_diagnostics input s')) hread.ahead.le (advance_ahead input s').le,
        fun _ => ?_,nofun⟩
      dsimp only
      rw [hpos]
      exact hread.closes hbyte
    · rw [if_neg hquote]
      by_cases hl : isLineEnd (s'.peek input 0) = true
      · rw [if_pos hl]
        exact .inl ⟨_,rfl,hread.reports,nofun,fun _ => ⟨hread.unended hq,hread.quiet⟩⟩
      · rw [if_neg hl]
        by_cases hb : s'.peek input 0 = '\\'.toNat
        · obtain ⟨s₁,h1,ha1,hlt1,-⟩ := consumeEscape_ok false hb
          rw [if_pos hb,h1,ok_bind]
          exact .inr ⟨s₁,rfl,hread.escape hq hb h1,by omega⟩
        · rw [if_neg hb]
          exact .inr ⟨_,rfl,hread.step hbyte hquote hb (advance_ahead input s') hpos (.of_eq (advance_diagnostics input s'))
            (iff_of_true (advance_diagnostics input s') (not_refusedAt hb nofun)),by omega⟩

end Lexer

end Ens.Lex
