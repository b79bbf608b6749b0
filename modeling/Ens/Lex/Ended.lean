import Ens.Lex.Reports
import Ens.Lex.Rounds

/-! # Pieces that are not closed

A round of the scan adds one piece, and says of it that it is not closed exactly when its text does not end as its kind asks.
Over a whole source this tells which pieces are reported, and in which order the reports stand.
-/
set_option linter.all false
namespace Ens.Lex
open Loop Utf8
variable {input : Text} {quote b c i j k : ℕ} {w rest : List ℕ}

/-! ### Pieces -/

def hasEnd : SyntaxKind → Bool
  | .stringLiteral | .charLiteral | .interpolatedStringStart | .interpolatedStringMiddle | .interpolatedStringEnd | .blockComment => true
  | _ => false

def notClosedMessage : SyntaxKind → List ℕ
  | .charLiteral => utf8 ("This character has no closing quote on its line. Write one character "
      ++ "between two single quotes, for example 'a'.")
  | .blockComment => utf8 ("This comment starts with '/*' and is never closed. Write '*/' where the "
      ++ "comment ends.")
  | _ => utf8 ("This string has no closing '\"' on its line. A string ends on the line it "
      ++ "starts on. Add '\"' where the text ends.")

def notClosed (p : RawToken) : Diagnostic := ⟨notClosedMessage p.kind,p.offset,p.length⟩

/-- The text of a piece ends as its kind asks. -/
def Ends (input : Text) (p : RawToken) : Prop := match p.kind with
  | .blockComment => 4 ≤ p.length ∧ byteAt input (p.stop - 1) = '/'.toNat ∧ byteAt input (p.stop - 2) = '*'.toNat
  | .stringLiteral | .interpolatedStringEnd => ¬Unended '"'.toNat (slice input (p.offset + 1) p.stop)
  | .charLiteral => ¬Unended '\''.toNat (slice input (p.offset + 1) p.stop)
  | _ => True

/-- Something is refused inside a literal. -/
def RefusedIn (input : Text) (p : RawToken) : Prop :=
  p.kind ≠ .blockComment ∧ Refuses input (decide (p.kind ≠ .charLiteral)) (p.offset + 1) p.stop

theorem ends_of_not_hasEnd {p : RawToken} (h : hasEnd p.kind = false) : Ends input p := by
  unfold Ends
  cases hk : p.kind <;> rw [hk] at h <;> trivial

/-- Pieces that tile a part of a source have some length each, lie in this part and follow one another. -/
theorem Tiles.follow {bs : List ℕ} {pieces : List RawToken} (h : Tiles bs pieces i j) :
    (∀ p ∈ pieces, 0 < p.length ∧ i ≤ p.offset ∧ p.stop ≤ j) ∧ pieces.Pairwise (fun p q => p.stop ≤ q.offset) ∧ i ≤ j := by
  induction pieces generalizing i with
  | nil => exact ⟨fun p hp => absurd hp List.not_mem_nil,List.Pairwise.nil,h.1.le⟩
  | cons p pieces ih =>
    obtain ⟨rfl,hp,-,hrest⟩ := h
    obtain ⟨hin,hpair,hle⟩ := ih hrest
    refine ⟨fun q hq => ?_,List.pairwise_cons.mpr ⟨fun q hq => (hin q hq).2.1,hpair⟩,Nat.le_trans (Nat.le_add_right _ _) hle⟩
    rcases List.mem_cons.mp hq with rfl | hq
    · exact ⟨hp,Nat.le_refl _,hle⟩
    · exact ⟨(hin q hq).1,Nat.le_trans (Nat.le_add_right _ _) (hin q hq).2.1,(hin q hq).2.2⟩

namespace Lexer
variable {s s' s₁ s₂ : Lexer} {kind : SyntaxKind} {p : RawToken} {message : List ℕ}

inductive Tells (input : Text) (s s' : Lexer) (p : RawToken) : Prop
  | ended {ds : List Diagnostic} : Ends input p → s'.diagnostics = s.diagnostics ++ ds → (∀ d ∈ ds, p.offset ≤ d.start ∧ d.start < p.stop) →
      (ds.Pairwise fun d e => d.start ≤ e.start) → (hasEnd p.kind = true → ∀ d ∈ ds, d ≠ notClosed p) → Tells input s s' p
  | left {ds : List Diagnostic} : hasEnd p.kind = true → ¬Ends input p → s'.diagnostics = s.diagnostics ++ (ds ++ [notClosed p]) →
      (∀ d ∈ ds, p.offset < d.start ∧ d.start < p.stop) → (ds.Pairwise fun d e => d.start ≤ e.start) →
      (ds = [] ↔ ¬RefusedIn input p) → (p.kind = .blockComment → p.stop = input.length) → Tells input s s' p

/-- A scan adds one piece, from the position before to the position after, and says what there is to say of it. -/
def Scanning (input : Text) (s s' : Lexer) : Prop :=
  ∃ p : RawToken, s'.pieces = s.pieces ++ [p] ∧ p.offset = s.position ∧ p.stop = s'.position ∧ Tells input s s' p

theorem piece_stop (hle : s.position ≤ s₁.position) : (⟨kind,s.position,s₁.position - s.position⟩ : RawToken).stop = s₁.position := by
  rw [RawToken.stop]
  dsimp only
  omega

theorem emit_scanning (hpieces : s₁.pieces = s.pieces) (hle : s.position ≤ s₁.position) (hk : hasEnd kind = false)
    (hr : Reports s.position s₁.position s s₁) : Scanning input s (s₁.emit kind s.position) := by
  obtain ⟨ds,hds,hin,hsorted⟩ := hr
  have hstop : (⟨kind,s.position,s₁.position - s.position⟩ : RawToken).stop = s₁.position := piece_stop hle
  refine ⟨⟨kind,s.position,s₁.position - s.position⟩,by rw [emit,hpieces],rfl,hstop,
    .ended (ends_of_not_hasEnd hk) hds (fun d hd => ⟨(hin d hd).1,by rw [hstop]; exact (hin d hd).2⟩) hsorted fun h => ?_⟩
  rw [hk] at h
  cases h

/-! ### Reports at one place -/

/-- Everything reported from one state to the next starts at one place. -/
def At (i : ℕ) (s s' : Lexer) : Prop := ∃ ds, s'.diagnostics = s.diagnostics ++ ds ∧ ∀ d ∈ ds, d.start = i

theorem At.of_eq (h : s'.diagnostics = s.diagnostics) : At i s s' :=
  ⟨[],by rw [h,List.append_nil],fun d hd => absurd hd List.not_mem_nil⟩

theorem At.trans (h : At i s s₁) (h' : At i s₁ s₂) : At i s s₂ := by
  obtain ⟨ds,hds,hin⟩ := h
  obtain ⟨es,hes,hin'⟩ := h'
  exact ⟨ds ++ es,by rw [hes,hds,List.append_assoc],fun d hd => (List.mem_append.mp hd).elim (hin d) (hin' d)⟩

theorem At.one (hd : s₁.diagnostics = s.diagnostics) (message : List ℕ) (j : ℕ) : At i s (s₁.report message i j) :=
  ⟨[⟨message,i,j - i⟩],by rw [report,hd],fun d hm => by rw [List.mem_singleton.mp hm]⟩

theorem At.reports (h : At i s s') {hi : ℕ} (hlt : i < hi) : Reports i hi s s' := by
  obtain ⟨ds,hds,hin⟩ := h
  refine ⟨ds,hds,fun d hd => by rw [hin d hd]; exact ⟨Nat.le_refl i,hlt⟩,List.pairwise_of_forall_mem_list fun d hd e he => ?_⟩
  rw [hin d hd,hin e he]

theorem advanceWhile_diagnostics (test : ℕ → Bool) (s : Lexer) : (s.advanceWhile input test).diagnostics = s.diagnostics := rfl

theorem lexRadix_at {test : ℕ → Bool} {text : List ℕ → List ℕ} (h : s.lexRadix input test text i = .ok s') : At i s s' := by
  have hdiag : ((s.advance input).advance input).diagnostics = s.diagnostics := by simp only [advance_diagnostics]
  unfold lexRadix at h
  dsimp only at h
  split at h
  · obtain ⟨u,-,h⟩ := bind_ok h
    cases h
    exact .one hdiag _ _
  · cases h
    exact .of_eq hdiag

theorem lexOctal_at (h : s.lexOctal input i = .ok s') : At i s s' := by
  have hdiag : ((s.advance input).advance input).diagnostics = s.diagnostics := by simp only [advance_diagnostics]
  unfold lexOctal at h
  dsimp only at h
  obtain ⟨u,-,h⟩ := bind_ok h
  split at h
  · obtain ⟨v,-,h⟩ := bind_ok h
    cases h
    exact .one hdiag _ _
  · split at h
    · cases h
      exact .one hdiag _ _
    · split at h
      · cases h
        exact .of_eq hdiag
      · obtain ⟨v,-,h⟩ := bind_ok h
        cases h
        exact .one hdiag _ _

theorem checkLeadingZero_at (h : s.checkLeadingZero input i = .ok s') : At i s s' := by
  unfold checkLeadingZero at h
  obtain ⟨u,-,h⟩ := bind_ok h
  dsimp only at h
  split at h
  · cases h
    exact .of_eq rfl
  · split at h
    · obtain ⟨v,-,h⟩ := bind_ok h
      cases h
      exact .one rfl _ _
    · obtain ⟨v,-,h⟩ := bind_ok h
      cases h
      exact .one rfl _ _

theorem lexDecimal_at {f : Bool} (h : s.lexDecimal input i = .ok (s',f)) : At i s s' := by
  unfold lexDecimal at h
  dsimp only at h
  obtain ⟨s₁,h1,h⟩ := bind_ok h
  have hat := checkLeadingZero_at h1
  cases h
  exact (At.of_eq (advanceWhile_diagnostics _ s)).trans (hat.trans (.of_eq (by rw [lexExponent_diagnostics,lexFraction_diagnostics])))

theorem lexDigits_at {f : Bool} (h : s.lexDigits input i = .ok (s',f)) : At i s s' := by
  have hmap : ∀ {x : Except Stop Lexer}, x.map (fun s => (s,false)) = .ok (s',f) → x = .ok s' := by
    intro x hx
    obtain ⟨s₁,rfl,heq⟩ := map_ok hx
    cases heq
    rfl
  unfold lexDigits at h
  dsimp only at h
  split at h
  · exact lexRadix_at (hmap h)
  · split at h
    · exact lexRadix_at (hmap h)
    · split at h
      · exact lexOctal_at (hmap h)
      · exact lexDecimal_at h

/-! ### Words and operators -/

theorem lexNumber_scanning (hb : Boundary input.bytes s.position) (hc : isDigit (s.peek input 0) = true)
    (h : s.lexNumber input s.position = .ok s') : Scanning input s s' := by
  obtain ⟨s₁,f,h1,hsteps,hlt⟩ := lexDigits_ok hb hc
  have hat := lexDigits_at h1
  have hsuffix : ∀ {kind : SyntaxKind}, hasEnd kind = false → Scanning input s ((s₁.advance input).emit kind s.position) := fun hk =>
    emit_scanning ((advance_ahead input s₁).pieces.trans hsteps.pieces) (Nat.le_trans hsteps.le (advance_ahead input s₁).le) hk
      ((hat.trans (.of_eq (advance_diagnostics input s₁))).reports (Nat.lt_of_lt_of_le hlt (advance_ahead input s₁).le))
  have hplain : ∀ {kind : SyntaxKind}, hasEnd kind = false → Scanning input s (s₁.emit kind s.position) := fun hk =>
    emit_scanning hsteps.pieces hsteps.le hk (hat.reports hlt)
  unfold lexNumber at h
  rw [h1,ok_bind] at h
  dsimp only at h
  split at h
  · cases h
    exact hsuffix rfl
  · split at h
    · cases h
      exact hsuffix rfl
    · split at h
      · cases h
        exact hsuffix (by split <;> rfl)
      · cases h
        exact hplain (by split <;> rfl)

/-- Partial correctness: what the rounds keep holds where the loop ends. -/
theorem loop_inv {E S R : Type} {out : E} {body : S → Except E (Loop.Flow S R)} {fuel : ℕ} {s : S} {r : R} {I : S → Prop} {Q : R → Prop}
    (hnext : ∀ s s', I s → body s = .ok (.next s') → I s') (hdone : ∀ s r, I s → body s = .ok (.done r) → Q r) (hI : I s)
    (h : loop out body fuel s = .ok r) : Q r := by
  induction fuel generalizing s with
  | zero => cases h
  | succ fuel ih =>
    rw [loop] at h
    split at h
    · cases h
    · rename_i hr
      cases h
      exact hdone s _ hI hr
    · rename_i s' hs
      exact ih (hnext s s' hI hs) h

theorem reportRefused_eq (h : s.reportRefused input i = .ok s') : ∃ message, s' = s.report message i s.position := by
  obtain ⟨u,-,h⟩ := bind_ok h
  cases h
  exact ⟨_,rfl⟩

theorem advanceTo_eq {stop : ℕ} (h : s.advanceTo input stop = .ok s') : s' = { s with position := max s.position stop } := by
  unfold advanceTo at h
  split at h
  · cases h
    rfl
  · cases h

theorem refusedRunEnd_le (h : refusedRunEnd input i = .ok j) : i ≤ j := by
  refine loop_inv (I := fun stop => i ≤ stop) (Q := fun stop => i ≤ stop) ?_ ?_ (Nat.le_refl i) h
  · intro stop stop' hle hbody
    split at hbody <;> cases hbody
    exact Nat.le_trans hle (Nat.le_add_right _ _)
  · intro stop r hle hbody
    split at hbody <;> cases hbody
    exact hle

theorem identifierLoop_reports (h : s.identifierLoop input = .ok s') : s'.pieces = s.pieces ∧ s.position ≤ s'.position ∧
    Reports s.position s'.position s s' := by
  refine loop_inv (I := fun s' => s'.pieces = s.pieces ∧ s.position ≤ s'.position ∧ Reports s.position s'.position s s')
    (Q := fun s' => s'.pieces = s.pieces ∧ s.position ≤ s'.position ∧ Reports s.position s'.position s s') ?_ ?_
    ⟨rfl,Nat.le_refl _,.of_eq rfl⟩ h
  · rintro s₁ s₂ ⟨hpieces,hle,hr⟩ hbody
    have ha := advance_ahead input s₁
    split at hbody
    · cases hbody
    · split at hbody
      · cases hbody
        exact ⟨ha.pieces.trans hpieces,Nat.le_trans hle ha.le,hr.trans (.of_eq (advance_diagnostics input s₁)) hle ha.le⟩
      · obtain ⟨runEnd,hrun,hbody⟩ := bind_ok hbody
        split at hbody
        · cases hbody
        · rename_i hstop
          obtain ⟨s₃,h3,hbody⟩ := bind_ok hbody
          obtain ⟨s₄,h4,hbody⟩ := bind_ok hbody
          cases hbody
          obtain rfl := advanceTo_eq h3
          obtain ⟨message,rfl⟩ := reportRefused_eq h4
          have hahead := refusedRunEnd_le hrun
          rw [not_or] at hstop
          have hlt : s₁.position < max s₁.position runEnd := by omega
          have hone : Reports s₁.position (max s₁.position runEnd) s₁
              (({ s₁ with position := max s₁.position runEnd } : Lexer).report message s₁.position (max s₁.position runEnd)) :=
            .one rfl message (Nat.le_refl _) hlt
          exact ⟨hpieces,Nat.le_trans hle (Nat.le_max_left _ _),hr.trans hone hle hlt.le⟩
  · rintro s₁ r hI hbody
    split at hbody
    · cases hbody
      exact hI
    · split at hbody
      · cases hbody
      · obtain ⟨runEnd,-,hbody⟩ := bind_ok hbody
        split at hbody
        · cases hbody
          exact hI
        · obtain ⟨s₃,h3,hbody⟩ := bind_ok hbody
          obtain ⟨s₄,h4,hbody⟩ := bind_ok hbody
          cases hbody

theorem keywords_hasEnd : ∀ kw ∈ keywords, hasEnd kw.2 = false := by decide

theorem operators_hasEnd : ∀ row ∈ operators, hasEnd row.2 = false := by decide

theorem singleCharacters_hasEnd : ∀ row ∈ singleCharacters, hasEnd row.2 = false := by decide

theorem lexIdentifierOrKeyword_scanning (h : s.lexIdentifierOrKeyword input s.position = .ok s') : Scanning input s s' := by
  obtain ⟨s₁,h1,h⟩ := bind_ok h
  obtain ⟨text,-,h⟩ := bind_ok h
  obtain ⟨hpieces,hle,hr⟩ := identifierLoop_reports h1
  split at h
  · cases h
    exact emit_scanning hpieces hle rfl hr
  · rename_i keyword hkeyword
    cases h
    obtain ⟨kw,hkw,rfl⟩ := Option.map_eq_some_iff.mp hkeyword
    exact emit_scanning hpieces hle (keywords_hasEnd kw (List.mem_of_find?_eq_some hkw)) hr

theorem advanceBy_ahead (input : Text) (count : ℕ) (s : Lexer) : Ahead input s (s.advanceBy input count) := by
  induction count generalizing s with
  | zero => exact Ahead.refl input s
  | succ count ih => exact (advance_ahead input s).trans (ih (s.advance input))

theorem advanceBy_diagnostics (input : Text) (count : ℕ) (s : Lexer) : (s.advanceBy input count).diagnostics = s.diagnostics := by
  induction count generalizing s with
  | zero => rfl
  | succ count ih => exact (ih (s.advance input)).trans (advance_diagnostics input s)

theorem consumeOperator_scanning (count : ℕ) (hk : hasEnd kind = false) :
    Scanning input s (s.consumeOperator input count kind s.position) :=
  emit_scanning (advanceBy_ahead input count s).pieces (advanceBy_ahead input count s).le hk (.of_eq (advanceBy_diagnostics input count s))

theorem lexOperator_scanning (hlt : s.position < s'.position) (h : s.lexOperator input s.position = .ok s') : Scanning input s s' := by
  unfold lexOperator at h
  split at h
  · rename_i operator kind hfound
    cases h
    exact consumeOperator_scanning _ (operators_hasEnd _ (List.mem_of_find?_eq_some hfound))
  · split at h
    · rename_i single hsingle
      cases h
      obtain ⟨row,hrow,rfl⟩ := Option.map_eq_some_iff.mp hsingle
      exact consumeOperator_scanning _ (singleCharacters_hasEnd row (List.mem_of_find?_eq_some hrow))
    · obtain ⟨runEnd,-,h⟩ := bind_ok h
      obtain ⟨s₁,h1,h⟩ := bind_ok h
      obtain ⟨s₂,h2,h⟩ := bind_ok h
      cases h
      obtain rfl := advanceTo_eq h1
      obtain ⟨message,rfl⟩ := reportRefused_eq h2
      exact emit_scanning rfl (Nat.le_max_left _ _) rfl (.one rfl _ (Nat.le_refl _) hlt)

/-! ### Literals and comments -/

theorem ended_scanning (hends : Ends input ⟨kind,s.position,s₁.position - s.position⟩) (hr : Reports (s.position + 1) s₁.position s s₁)
    (hle : s.position ≤ s₁.position) (hp : s'.pieces = s.pieces ++ [⟨kind,s.position,s₁.position - s.position⟩])
    (hd : s'.diagnostics = s₁.diagnostics) (hpos : s'.position = s₁.position) : Scanning input s s' := by
  obtain ⟨ds,hds,hin,hsorted⟩ := hr
  have hstop : (⟨kind,s.position,s₁.position - s.position⟩ : RawToken).stop = s₁.position := piece_stop hle
  refine ⟨_,hp,rfl,hstop.trans hpos.symm,.ended hends (hd.trans hds) (fun d hd => ⟨Nat.le_of_succ_le (hin d hd).1,?_⟩) hsorted
    fun _ d hd heq => ?_⟩
  · rw [hstop]
    exact (hin d hd).2
  · have hlate := (hin d hd).1
    rw [heq] at hlate
    exact absurd hlate (Nat.not_succ_le_self s.position)

theorem left_scanning (hk : hasEnd kind = true) (hlast : kind = .blockComment → s₁.position = input.length)
    (hquiet : s₁.diagnostics = s.diagnostics ↔ ¬RefusedIn input ⟨kind,s.position,s₁.position - s.position⟩)
    (hnot : ¬Ends input ⟨kind,s.position,s₁.position - s.position⟩)
    (hr : Reports (s.position + 1) s₁.position s s₁) (hle : s.position ≤ s₁.position)
    (hp : s'.pieces = s.pieces ++ [⟨kind,s.position,s₁.position - s.position⟩])
    (hd : s'.diagnostics = s₁.diagnostics ++ [notClosed ⟨kind,s.position,s₁.position - s.position⟩])
    (hpos : s'.position = s₁.position) : Scanning input s s' := by
  obtain ⟨ds,hds,hin,hsorted⟩ := hr
  have hstop : (⟨kind,s.position,s₁.position - s.position⟩ : RawToken).stop = s₁.position := piece_stop hle
  refine ⟨_,hp,rfl,hstop.trans hpos.symm,.left hk hnot (by rw [hd,hds,List.append_assoc]) (fun d hd => ⟨(hin d hd).1,?_⟩) hsorted
    (by rw [← hquiet,hds,List.append_right_eq_self]) fun hk => hstop.trans (hlast hk)⟩
  rw [hstop]
  exact (hin d hd).2

theorem pushHole_keeps {value : ℤ} (h : s.pushHole value = .ok s') : s'.pieces = s.pieces ∧ s'.diagnostics = s.diagnostics ∧
    s'.position = s.position := by
  unfold pushHole at h
  split at h
  · cases h
    exact ⟨rfl,rfl,rfl⟩
  · split at h
    · cases h
      exact ⟨rfl,rfl,rfl⟩
    · cases h

theorem lexStringBody_scanning {atStart : Bool} (hlt : s.position < input.length)
    (h : (s.advance input).lexStringBody input s.position atStart = .ok s') : Scanning input s s' := by
  have hpos := advance_position hlt
  obtain ⟨⟨s₁,ended⟩,h1,h⟩ := bind_ok h
  obtain ⟨r,hr1,ha,-⟩ := stringLoop_ok (show (s.advance input).position ≤ input.length by omega)
  obtain rfl : r = (s₁,ended) := Except.ok.inj (hr1.symm.trans h1)
  obtain ⟨hreports,hclosed,hline⟩ := stringLoop_reads (show (s.advance input).position ≤ input.length by omega) h1
  dsimp only at ha hreports hclosed hline h
  rw [hpos,advance_diagnostics] at hline
  rw [hpos] at hclosed
  have hr : Reports (s.position + 1) s₁.position s s₁ := by
    obtain ⟨ds,hds,hin,hsorted⟩ := hreports
    exact ⟨ds,by rw [hds,advance_diagnostics],by rwa [hpos] at hin,hsorted⟩
  have hpieces : s₁.pieces = s.pieces := ha.pieces.trans (advance_ahead input s).pieces
  have hle : s.position ≤ s₁.position := Nat.le_trans (advance_ahead input s).le ha.le
  have hstop : ∀ kind, (⟨kind,s.position,s₁.position - s.position⟩ : RawToken).stop = s₁.position := fun kind => piece_stop hle
  cases ended with
  | closed =>
    have hends : ∀ kind, kind = .stringLiteral ∨ kind = .interpolatedStringEnd → Ends input ⟨kind,s.position,s₁.position - s.position⟩ := by
      rintro kind (rfl | rfl) <;> rw [Ends] <;> dsimp only <;> rw [hstop] <;> exact hclosed rfl
    have hne : BodyEnd.closed ≠ BodyEnd.line := by rintro ⟨⟩
    have hne' : BodyEnd.closed ≠ BodyEnd.hole := by rintro ⟨⟩
    rw [if_neg hne] at h
    cases atStart with
    | true =>
      rw [if_pos ⟨rfl,hne'⟩] at h
      cases h
      exact ended_scanning (hends _ (.inl rfl)) hr hle (by rw [emit,hpieces]) rfl rfl
    | false =>
      rw [if_neg (fun hs => Bool.false_ne_true hs.1),if_neg Bool.false_ne_true,if_neg hne'] at h
      cases h
      split
      · exact ended_scanning (hends _ (.inr rfl)) hr hle (by rw [emit,hpieces]) rfl rfl
      · exact ended_scanning (hends _ (.inr rfl)) hr hle (by rw [emit,popHole,hpieces]) rfl rfl
  | line =>
    have hnot : ∀ kind, kind = .stringLiteral ∨ kind = .interpolatedStringEnd →
        ¬Ends input ⟨kind,s.position,s₁.position - s.position⟩ := by
      rintro kind (rfl | rfl) <;> rw [Ends] <;> dsimp only <;> rw [hstop,not_not] <;> exact (hline rfl).1
    have hquiet : ∀ kind, kind = .stringLiteral ∨ kind = .interpolatedStringEnd →
        (s₁.diagnostics = s.diagnostics ↔ ¬RefusedIn input ⟨kind,s.position,s₁.position - s.position⟩) := by
      rintro kind (rfl | rfl) <;> rw [(hline rfl).2,RefusedIn] <;> dsimp only <;> rw [hstop] <;>
        exact not_congr (iff_and_self.mpr fun _ => by decide)
    have hne' : BodyEnd.line ≠ BodyEnd.hole := by rintro ⟨⟩
    rw [if_pos rfl] at h
    cases atStart with
    | true =>
      rw [if_pos ⟨rfl,hne'⟩] at h
      cases h
      exact left_scanning rfl (fun hk => absurd hk (by decide)) (hquiet _ (.inl rfl)) (hnot _ (.inl rfl)) hr hle (by rw [emit,report,hpieces]) rfl rfl
    | false =>
      rw [if_neg (fun hs => Bool.false_ne_true hs.1),if_neg Bool.false_ne_true,if_neg hne'] at h
      cases h
      split
      · exact left_scanning rfl (fun hk => absurd hk (by decide)) (hquiet _ (.inr rfl)) (hnot _ (.inr rfl)) hr hle (by rw [emit,report,hpieces]) rfl rfl
      · exact left_scanning rfl (fun hk => absurd hk (by decide)) (hquiet _ (.inr rfl)) (hnot _ (.inr rfl)) hr hle (by rw [emit,popHole,report,hpieces]) rfl rfl
  | hole =>
    have hends : ∀ kind, kind = .interpolatedStringStart ∨ kind = .interpolatedStringMiddle →
        Ends input ⟨kind,s.position,s₁.position - s.position⟩ := by
      rintro kind (rfl | rfl) <;> trivial
    have hne : BodyEnd.hole ≠ BodyEnd.line := by rintro ⟨⟩
    rw [if_neg hne,if_neg (fun hs => hs.2 rfl)] at h
    cases atStart with
    | true =>
      rw [if_pos rfl] at h
      obtain ⟨s₂,h2,h⟩ := bind_ok h
      obtain ⟨hp2,hd2,hpos2⟩ := pushHole_keeps h2
      cases h
      exact ended_scanning (hends _ (.inl rfl)) hr hle (by rw [emit,hp2,hpos2,hpieces]) hd2 hpos2
    | false =>
      rw [if_neg Bool.false_ne_true,if_pos rfl] at h
      cases h
      exact ended_scanning (hends _ (.inr rfl)) hr hle (by rw [emit,hpieces]) rfl rfl

theorem notClosed_head : (notClosedMessage .charLiteral).head? = some 'T'.toNat := by decide +kernel

/-- A refusal of how many characters there are begins with the quote of the literal. -/
theorem refusal_head {literal : Text} (hquote : literal.bytes.head? = some '\''.toNat) (h : characterLengthRefusal literal = .ok message) :
    message.head? = some '\''.toNat := by
  have happend : ∀ w : List ℕ, (literal.bytes ++ w).head? = some '\''.toNat := fun w => by rw [List.head?_append,hquote]; rfl
  obtain ⟨count,-,h⟩ := bind_ok h
  obtain ⟨content,-,h⟩ := bind_ok h
  split at h
  · have hmessage := Except.ok.inj h
    rw [← hmessage]
    decide +kernel
  · obtain ⟨string,-,h⟩ := bind_ok h
    obtain ⟨joined,-,h⟩ := bind_ok h
    split at h
    · cases h
      simp only [List.append_assoc]
      exact happend _
    · obtain ⟨first,-,h⟩ := bind_ok h
      cases h
      simp only [List.append_assoc]
      exact happend _

theorem lexCharacter_scanning (hc : s.peek input 0 = '\''.toNat) (h : s.lexCharacter input s.position = .ok s') : Scanning input s s' := by
  have hbyte : input.bytes[s.position]? = some '\''.toNat := peek_byte hc (by decide)
  have hlt : s.position < input.length := (List.getElem?_eq_some_iff.mp hbyte).1
  have hpos := advance_position hlt
  obtain ⟨⟨s₁,closed⟩,h1,h⟩ := bind_ok h
  obtain ⟨r,hr1,ha,-⟩ := characterLoop_ok (show (s.advance input).position ≤ input.length by omega)
  obtain rfl : r = (s₁,closed) := Except.ok.inj (hr1.symm.trans h1)
  obtain ⟨hreports,hclosed,hline⟩ := characterLoop_reads (show (s.advance input).position ≤ input.length by omega) h1
  dsimp only at ha hreports hclosed hline h
  rw [hpos,advance_diagnostics] at hline
  rw [hpos] at hclosed
  have hr : Reports (s.position + 1) s₁.position s s₁ := by
    obtain ⟨ds,hds,hin,hsorted⟩ := hreports
    exact ⟨ds,by rw [hds,advance_diagnostics],by rwa [hpos] at hin,hsorted⟩
  have hpieces : s₁.pieces = s.pieces := ha.pieces.trans (advance_ahead input s).pieces
  have hlt1 : s.position < s₁.position := Nat.lt_of_lt_of_le (by omega) ha.le
  have hstop : (⟨.charLiteral,s.position,s₁.position - s.position⟩ : RawToken).stop = s₁.position := piece_stop hlt1.le
  cases closed with
  | false =>
    have hnot : ¬Ends input ⟨.charLiteral,s.position,s₁.position - s.position⟩ := by
      rw [Ends]
      dsimp only
      rw [hstop,not_not]
      exact (hline rfl).1
    have hquiet : s₁.diagnostics = s.diagnostics ↔ ¬RefusedIn input ⟨.charLiteral,s.position,s₁.position - s.position⟩ := by
      rw [(hline rfl).2,RefusedIn]
      dsimp only
      rw [hstop]
      exact not_congr (iff_and_self.mpr fun _ => by decide)
    rw [if_pos rfl] at h
    cases h
    exact left_scanning rfl (fun hk => absurd hk (by decide)) hquiet hnot hr hlt1.le (by rw [emit,report,hpieces]) rfl rfl
  | true =>
    have hends : Ends input ⟨.charLiteral,s.position,s₁.position - s.position⟩ := by
      rw [Ends]
      dsimp only
      rw [hstop]
      exact hclosed rfl
    have hquiet : Scanning input s (s₁.emit .charLiteral s.position) := ended_scanning hends hr hlt1.le (by rw [emit,hpieces]) rfl rfl
    rw [if_neg (fun h => Bool.false_ne_true h.symm)] at h
    split at h
    · rename_i hcount
      obtain ⟨literal,hsub,h⟩ := bind_ok h
      obtain ⟨count,-,h⟩ := bind_ok h
      split at h
      · obtain ⟨refusal,hrefusal,h⟩ := bind_ok h
        cases h
        -- nothing was reported inside the literal, and the refusal is not the report of a missing end
        obtain ⟨ds,hds,-,-⟩ := hr
        have hnone : s₁.diagnostics = s.diagnostics := by
          have hlen := congrArg List.length hds
          rw [List.length_append] at hlen
          rw [hds,List.length_eq_zero_iff.mp (by omega : ds.length = 0),List.append_nil]
        have hquote : literal.bytes.head? = some '\''.toNat := by
          obtain ⟨hi,hj,hij⟩ := Text.substring_boundary hsub
          obtain ⟨u,hu,hbytes⟩ := Text.substring_ok hi hj hij
          obtain rfl : u = literal := Except.ok.inj (hu.symm.trans hsub)
          rw [hbytes,List.head?_drop,List.getElem?_take_of_lt hlt1,hbyte]
        refine ⟨⟨.charLiteral,s.position,s₁.position - s.position⟩,by rw [emit,report,hpieces],rfl,hstop,
          .ended hends (by rw [emit,report,hnone]) (fun d hd => ?_) (List.pairwise_singleton _ _) fun _ d hd heq => ?_⟩
        · rw [List.mem_singleton.mp hd,hstop]
          exact ⟨Nat.le_refl _,hlt1⟩
        · rw [List.mem_singleton.mp hd] at heq
          have hmessage := congrArg Diagnostic.message heq
          rw [notClosed] at hmessage
          dsimp only at hmessage
          have hhead := refusal_head hquote hrefusal
          rw [hmessage,notClosed_head] at hhead
          exact absurd hhead (by decide)
      · cases h
        exact hquiet
    · cases h
      exact hquiet

theorem blockCommentRest_star (l : List ℕ) (h : (blockCommentRest l).2 = true) :
    2 ≤ (blockCommentRest l).1 ∧ l[(blockCommentRest l).1 - 2]? = some '*'.toNat := by
  induction l with
  | nil => cases h
  | cons c rest ih =>
    unfold blockCommentRest at h ⊢
    split at h
    · rename_i hc
      rw [if_pos hc]
      exact ⟨Nat.le_refl 2,congrArg some hc.1⟩
    · rename_i hc
      rw [if_neg hc]
      obtain ⟨htwo,hstar⟩ := ih h
      refine ⟨Nat.le_succ_of_le htwo,?_⟩
      dsimp only
      rwa [show (blockCommentRest rest).1 + 1 - 2 = (blockCommentRest rest).1 - 2 + 1 by omega,List.getElem?_cons_succ]

theorem blockCommentRest_open (l : List ℕ) (h : (blockCommentRest l).2 = false) (k : ℕ) (hstar : l[k]? = some '*'.toNat) :
    l[k + 1]? ≠ some '/'.toNat := by
  induction l generalizing k with
  | nil => cases hstar
  | cons c rest ih =>
    unfold blockCommentRest at h
    split at h
    · cases h
    · rename_i hc
      cases k with
      | zero =>
        intro hslash
        rw [List.getElem?_cons_succ,← List.head?_eq_getElem?] at hslash
        exact hc ⟨Option.some.inj hstar,hslash⟩
      | succ k => exact ih h k hstar

theorem lexBlockComment_scanning {c d : ℕ} (hc : input.bytes[s.position]? = some c) (hd : input.bytes[s.position + 1]? = some d) :
    Scanning input s (s.lexBlockComment input s.position) := by
  have hpos := advance_two hc hd
  have hlen : s.position + 1 < input.bytes.length := (List.getElem?_eq_some_iff.mp hd).1
  have hpieces : ((s.advance input).advance input).pieces = s.pieces := ((advance_ahead input s).trans (advance_ahead input _)).pieces
  have hdiag : ((s.advance input).advance input).diagnostics = s.diagnostics := by simp only [advance_diagnostics]
  obtain ⟨h1,h2,h3⟩ := blockCommentRest_spec (input.bytes.drop (s.position + 2))
  have hstar := blockCommentRest_star (input.bytes.drop (s.position + 2))
  have hopen := blockCommentRest_open (input.bytes.drop (s.position + 2))
  unfold lexBlockComment
  dsimp only
  rw [hpos]
  generalize blockCommentRest (input.bytes.drop (s.position + 2)) = r at h1 h2 h3 hstar hopen
  obtain ⟨taken,closed⟩ := r
  dsimp only at h1 h2 h3 hstar hopen ⊢
  rw [List.length_drop] at h1 h3
  have hlength : s.position + 2 + taken - s.position = 2 + taken := by omega
  have hr : Reports (s.position + 1) (s.position + 2 + taken) s
      { ((s.advance input).advance input) with position := s.position + 2 + taken } := .of_eq hdiag
  cases closed with
  | true =>
    obtain ⟨htwo,hslash⟩ := h2 rfl
    obtain ⟨-,hst⟩ := hstar rfl
    rw [List.getElem?_drop] at hslash hst
    have hends : Ends input ⟨.blockComment,s.position,s.position + 2 + taken - s.position⟩ := by
      refine ⟨by dsimp only; omega,?_,?_⟩
      · rw [RawToken.stop]
        dsimp only
        rw [show s.position + (s.position + 2 + taken - s.position) - 1 = s.position + 2 + (taken - 1) by omega]
        exact byteAt_some hslash
      · rw [RawToken.stop]
        dsimp only
        rw [show s.position + (s.position + 2 + taken - s.position) - 2 = s.position + 2 + (taken - 2) by omega]
        exact byteAt_some hst
    rw [if_pos rfl]
    refine ended_scanning ?_ hr (by dsimp only; omega) (by rw [emit,hpieces]) rfl rfl
    exact hends
  | false =>
    have htaken := h3 rfl
    have hnot : ¬Ends input ⟨.blockComment,s.position,s.position + 2 + taken - s.position⟩ := by
      rintro ⟨hfour,hslash,hst⟩
      rw [RawToken.stop] at hslash hst
      dsimp only at hfour hslash hst
      refine hopen rfl (taken - 2) ?_ ?_
      · rw [List.getElem?_drop]
        exact byte_of_byteAt (by rw [← hst]; congr 1; omega) (by decide)
      · rw [List.getElem?_drop]
        exact byte_of_byteAt (by rw [← hslash]; congr 1; omega) (by decide)
    rw [if_neg Bool.false_ne_true]
    refine left_scanning rfl (fun _ => ?_) ?_ ?_ hr (by dsimp only; omega) (by rw [emit,report,hpieces]) rfl rfl
    · rw [Text.length,htaken,Nat.add_sub_cancel' (by omega)]
    · exact iff_of_true hdiag fun h => h.1 rfl
    · exact hnot

/-! ### Rounds of the scan -/

theorem lexWhitespace_scanning : Scanning input s (s.lexWhitespace input s.position) :=
  emit_scanning (advanceWhile_ahead input isSpace s).pieces (advanceWhile_ahead input isSpace s).le rfl (.of_eq rfl)

theorem lexNewline_scanning : Scanning input s (s.lexNewline input s.position) := by
  have h1 := advance_ahead input s
  have h2 := h1.trans (advance_ahead input (s.advance input))
  unfold lexNewline
  dsimp only
  split
  · exact emit_scanning h2.pieces h2.le rfl (.of_eq (by simp only [advance_diagnostics]))
  · exact emit_scanning h1.pieces h1.le rfl (.of_eq (advance_diagnostics input s))

theorem lexLineComment_scanning : Scanning input s (s.lexLineComment input s.position) := by
  have ha := ((advance_ahead input s).trans (advance_ahead input _)).trans
    (advanceWhile_ahead input (fun c => !isLineEnd c) ((s.advance input).advance input))
  exact emit_scanning ha.pieces ha.le rfl (.of_eq (by simp only [advanceWhile_diagnostics,advance_diagnostics]))

theorem scanToken_scanning (hs : HolesOk s) (hb : Boundary input.bytes s.position) (hlt : s.position < input.length)
    (h : s.scanToken input s.position (s.peek input 0) = .ok s') : Scanning input s s' := by
  have hbyte := peek_zero_byte hlt
  have hafter : s.position < s'.position := by
    obtain ⟨s₁,h1,hsc⟩ := scanToken_scans hs hb hlt
    obtain rfl : s₁ = s' := Except.ok.inj (h1.symm.trans h)
    exact hsc.lt
  unfold scanToken at h
  split at h
  · cases h
    exact lexWhitespace_scanning
  · split at h
    · cases h
      exact lexNewline_scanning
    · split at h
      · split at h
        · cases h
          exact lexLineComment_scanning
        · split at h
          · rename_i hstar
            cases h
            exact lexBlockComment_scanning hbyte (peek_byte hstar (by decide))
          · exact lexOperator_scanning hafter h
      · split at h
        · rename_i hdigit
          exact lexNumber_scanning hb hdigit h
        · split at h
          · exact lexIdentifierOrKeyword_scanning h
          · split at h
            · exact lexStringBody_scanning hlt h
            · split at h
              · rename_i hquote
                exact lexCharacter_scanning hquote h
              · exact lexOperator_scanning hafter h

theorem Scanning.of_holes (h : Scanning input s₁ s') (hpos : s₁.position = s.position) (hpieces : s₁.pieces = s.pieces)
    (hd : s₁.diagnostics = s.diagnostics) : Scanning input s s' := by
  obtain ⟨p,hp,hstart,hstop,htells⟩ := h
  refine ⟨p,hp.trans (by rw [hpieces]),hstart.trans hpos,hstop,?_⟩
  cases htells with
  | ended hends hds hin hsorted hnone => exact .ended hends (by rw [hds,hd]) hin hsorted hnone
  | left hk hnot hds hin hsorted hquiet hlast => exact .left hk hnot (by rw [hds,hd]) hin hsorted hquiet hlast

theorem setHoleTop_eq {value : ℤ} (h : s.setHoleTop value = .ok s₁) : s₁.holeDepthCount = s.holeDepthCount ∧
    s₁.holeDepthStack.length = s.holeDepthStack.length ∧ s₁.position = s.position ∧ s₁.pieces = s.pieces ∧
    s₁.diagnostics = s.diagnostics := by
  unfold setHoleTop at h
  split at h
  · cases h
    exact ⟨rfl,List.length_set,rfl,rfl,rfl⟩
  · cases h

theorem scanPiece_scanning (hs : HolesOk s) (hb : Boundary input.bytes s.position) (hlt : s.position < input.length)
    (h : s.scanPiece input = .ok s') : Scanning input s s' := by
  have hdeeper : ∀ value, (do
      let s₁ ← s.setHoleTop value
      s₁.scanToken input s.position (s.peek input 0)) = .ok s' → Scanning input s s' := by
    intro value h
    obtain ⟨s₁,h1,h⟩ := bind_ok h
    obtain ⟨hcount,hlength,hpos,hpieces,hd⟩ := setHoleTop_eq h1
    have hpeek : s.peek input 0 = s₁.peek input 0 := by rw [peek,peek,hpos]
    rw [hpeek,← hpos] at h
    exact (scanToken_scanning (by rw [HolesOk,hcount,hlength]; exact hs) (hpos ▸ hb) (hpos ▸ hlt) h).of_holes hpos hpieces hd
  unfold scanPiece at h
  dsimp only at h
  split at h
  · exact scanToken_scanning hs hb hlt h
  · obtain ⟨depth,-,h⟩ := bind_ok h
    split at h
    · exact lexStringBody_scanning hlt h
    · split at h
      · exact hdeeper _ h
      · split at h
        · exact hdeeper _ h
        · exact scanToken_scanning hs hb hlt h

/-! ### The scan of a source -/

/-- What the reports say of the pieces so far: which of them are not closed, and whether they stand in order. -/
structure Told (input : Text) (s : Lexer) : Prop where
  tiled : Tiled input s
  before : ∀ p ∈ s.pieces, p.stop ≤ s.position
  early : ∀ d ∈ s.diagnostics, d.start < s.position
  told : ∀ p ∈ s.pieces, hasEnd p.kind = true → (notClosed p ∈ s.diagnostics ↔ ¬Ends input p)
  last : ∀ p ∈ s.pieces, p.kind = .blockComment → ¬Ends input p → p.stop = input.length
  ordered : (s.diagnostics.Pairwise fun d e => d.start ≤ e.start) ↔
    ∀ p ∈ s.pieces, hasEnd p.kind = true → ¬Ends input p → ¬RefusedIn input p

theorem Tells.new (h : Tells input s s' p) (hlt : p.offset < p.stop) : ∃ ds, s'.diagnostics = s.diagnostics ++ ds ∧
    (∀ d ∈ ds, p.offset ≤ d.start ∧ d.start < p.stop) ∧ (hasEnd p.kind = true → (notClosed p ∈ ds ↔ ¬Ends input p)) ∧
    (p.kind = .blockComment → ¬Ends input p → p.stop = input.length) ∧
    ((ds.Pairwise fun d e => d.start ≤ e.start) ↔ (hasEnd p.kind = true → ¬Ends input p → ¬RefusedIn input p)) := by
  cases h with
  | @ended ds hends hds hin hsorted hnone =>
    exact ⟨ds,hds,hin,fun hk => iff_of_false (fun hd => hnone hk _ hd rfl) (not_not_intro hends),fun _ hnot => absurd hends hnot,
      iff_of_true hsorted fun _ hnot => absurd hends hnot⟩
  | @left ds hk hnot hds hin hsorted hquiet hlast =>
    refine ⟨ds ++ [notClosed p],hds,fun d hd => ?_,fun _ => iff_of_true (List.mem_append_right _ (List.mem_singleton_self _)) hnot,
      fun hc _ => hlast hc,?_⟩
    · rcases List.mem_append.mp hd with hd | hd
      · exact ⟨(hin d hd).1.le,(hin d hd).2⟩
      · rw [List.mem_singleton.mp hd]
        exact ⟨Nat.le_refl _,hlt⟩
    · -- the report of the piece itself comes last and starts first
      constructor
      · intro hpair _ _
        refine hquiet.mp (List.eq_nil_iff_forall_not_mem.mpr fun d hd => ?_)
        exact absurd ((List.pairwise_append.mp hpair).2.2 d hd _ (List.mem_singleton_self _)) (Nat.not_le_of_lt (hin d hd).1)
      · intro hclear
        rw [hquiet.mpr (hclear hk hnot)]
        exact List.pairwise_singleton _ _

theorem Told.step (ht : Told input s) (hsc : Scans input s s') (hs : Scanning input s s') : Told input s' := by
  obtain ⟨p,hp,hstart,hstop,htells⟩ := hs
  have hlt := hsc.lt
  obtain ⟨ds,hds,hin,hiff,hlast,hsorted⟩ := htells.new (by omega)
  have hnew : ∀ d ∈ ds, s.position ≤ d.start := fun d hd => hstart ▸ (hin d hd).1
  have hpos : ∀ q ∈ s.pieces, 0 < q.length := fun q hq => (ht.tiled.tiles.follow.1 q hq).1
  have hmem : ∀ q, q ∈ s'.pieces ↔ q ∈ s.pieces ∨ q = p := fun q => by rw [hp,List.mem_append,List.mem_singleton]
  refine ⟨hsc.tiled ht.tiled,fun q hq => ?_,fun d hd => ?_,fun q hq hk => ?_,fun q hq hk hnot => ?_,?_⟩
  · rcases (hmem q).mp hq with hq | rfl
    · exact Nat.le_trans (ht.before q hq) hlt.le
    · exact hstop.le
  · rw [hds] at hd
    rcases List.mem_append.mp hd with hd | hd
    · exact Nat.lt_trans (ht.early d hd) hlt
    · exact hstop ▸ (hin d hd).2
  · rw [hds,List.mem_append]
    rcases (hmem q).mp hq with hq | rfl
    · have hfront : q.offset < s.position := Nat.lt_of_lt_of_le (Nat.lt_add_of_pos_right (hpos q hq)) (ht.before q hq)
      rw [← ht.told q hq hk]
      exact or_iff_left fun hd => absurd (hnew _ hd) (Nat.not_le_of_lt hfront)
    · rw [← hiff hk]
      exact or_iff_right fun hd => absurd (ht.early _ hd) (Nat.not_lt_of_le hstart.ge)
  · rcases (hmem q).mp hq with hq | rfl
    · exact ht.last q hq hk hnot
    · exact hlast hk hnot
  · rw [hds,List.pairwise_append,ht.ordered,hsorted]
    constructor
    · rintro ⟨hold,hone,-⟩ q hq hk hnot
      rcases (hmem q).mp hq with hq | rfl
      · exact hold q hq hk hnot
      · exact hone hk hnot
    · intro hall
      exact ⟨fun q hq => hall q ((hmem q).mpr (.inl hq)),hall p ((hmem p).mpr (.inr rfl)),
        fun d hd e he => Nat.le_trans (ht.early d hd).le (hnew e he)⟩

theorem start_plain (input : Text) : (start input).diagnostics = [] ∧
    ∀ p ∈ (start input).pieces, hasEnd p.kind = false ∧ p.stop ≤ (start input).position := by
  unfold start scanByteOrderMark
  split
  · exact ⟨rfl,fun p hp => absurd hp List.not_mem_nil⟩
  · have ha := ((advance_ahead input {}).trans (advance_ahead input _)).trans (advance_ahead input _)
    refine ⟨by simp only [emit,advance_diagnostics],fun p hp => ?_⟩
    rw [emit,ha.pieces] at hp
    rw [List.mem_singleton.mp hp]
    exact ⟨rfl,(piece_stop (s := {}) (Nat.zero_le _)).le⟩

theorem start_told (input : Text) : Told input (start input) := by
  obtain ⟨hd,hp⟩ := start_plain input
  have hplain : ∀ p ∈ (start input).pieces, hasEnd p.kind = true → False := fun p hm hk => by
    rw [(hp p hm).1] at hk
    cases hk
  refine ⟨scanByteOrderMark_tiled input,fun p hm => (hp p hm).2,fun d hm => ?_,fun p hm hk => (hplain p hm hk).elim,
    fun p hm hk => (hplain p hm (by rw [hk]; rfl)).elim,iff_of_true ?_ fun p hm hk => (hplain p hm hk).elim⟩
  · rw [hd] at hm
    cases hm
  · rw [hd]
    exact List.Pairwise.nil

theorem rounds_told (hr : Rounds input s s') (ht : Told input s) : Told input s' := by
  induction hr with
  | refl => exact ht
  | tail _ hstep ih =>
    obtain ⟨t,hok,hscan⟩ := scanPiece_scans ih.tiled.holes ih.tiled.boundary hstep.1
    cases Except.ok.inj (hok.symm.trans hstep.2)
    exact ih.step hscan (scanPiece_scanning ih.tiled.holes ih.tiled.boundary hstep.1 hstep.2)

/-- What lexing leaves: its pieces with the end of the file after them, and what is told of them. -/
theorem lex_told {r : LexResult} (h : lex input = .ok r) : ∃ s, Told input s ∧ s.position = input.length ∧
    r.rawPieces = s.pieces ++ [⟨.endOfFile,input.length,0⟩] ∧ r.lexDiagnostics = s.diagnostics := by
  obtain ⟨s,hr,hpos,hpieces,hd⟩ := lex_rounds h
  exact ⟨s,rounds_told hr (start_told input),hpos,hpieces,hd⟩

end Lexer
end Ens.Lex
