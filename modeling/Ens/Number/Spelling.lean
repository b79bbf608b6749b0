import Ens.Number.Decimal
import Ens.Number.Parse

/-! # The texts that spell a double

A sign, whole digits, digits after a point and an exponent, and the decimal value they have.
`spellsDouble` accepts these texts and no others.
-/
set_option linter.all false
namespace Ens.Number
open Decimal
variable {text : Text} {l rest : List ℕ} {i b : ℕ}

inductive Sign
  | plus
  | minus
  deriving DecidableEq, Repr

def Sign.byte : Sign → ℕ
  | .plus => '+'.toNat
  | .minus => '-'.toNat

def signBytes (sign : Option Sign) : List ℕ := (sign.map Sign.byte).toList

def digitBytes (digits : List ℕ) : List ℕ := digits.map fun d => '0'.toNat + d

structure Scientific where
  mark : ℕ
  sign : Option Sign
  digits : List ℕ
  marks : isExponentMark mark = true
  nonempty : digits ≠ []
  small : AreDigits digits

namespace Scientific

def bytes (e : Scientific) : List ℕ := e.mark :: (signBytes e.sign ++ digitBytes e.digits)

def signed (e : Scientific) (n : ℕ) : ℤ := if e.sign = some .minus then -n else n

end Scientific

structure Spelling where
  sign : Option Sign
  whole : List ℕ
  fraction : List ℕ
  exponent : Option Scientific
  nonempty : whole ≠ []
  wholeSmall : AreDigits whole
  fractionSmall : AreDigits fraction

namespace Spelling

def pointBytes (fraction : List ℕ) : List ℕ := if fraction = [] then [] else '.'.toNat :: digitBytes fraction

def exponentBytes (exponent : Option Scientific) : List ℕ := (exponent.map Scientific.bytes).getD []

def bytes (sp : Spelling) : List ℕ :=
  signBytes sp.sign ++ (digitBytes sp.whole ++ (pointBytes sp.fraction ++ exponentBytes sp.exponent))

def start (sp : Spelling) : ℕ := (signBytes sp.sign).length

def valueAt (sp : Spelling) (exponent : ℤ) : ℚ :=
  magnitude (sp.whole ++ sp.fraction) (sp.whole.length + exponent)

def scale (sp : Spelling) : ℤ := (sp.exponent.map fun e => e.signed (number e.digits)).getD 0

def value (sp : Spelling) : ℚ := sp.valueAt sp.scale

end Spelling

/-! ### Bytes -/

theorem isDigit_add {d : ℕ} (h : d < 10) : isDigit ('0'.toNat + d) = true := by
  simp only [isDigit,Bool.and_eq_true,decide_eq_true_eq,Char.reduceToNat]
  omega

theorem digitBytes_digit (h : AreDigits l) (hb : b ∈ digitBytes l) : isDigit b = true := by
  obtain ⟨d,hd,rfl⟩ := List.mem_map.mp hb
  exact isDigit_add (h d hd)

theorem exists_digits (h : ∀ b ∈ rest, isDigit b = true) : ∃ l, AreDigits l ∧ rest = digitBytes l := by
  refine ⟨rest.map fun b => b - '0'.toNat,?_,?_⟩
  · intro d hd
    obtain ⟨b,hb,rfl⟩ := List.mem_map.mp hd
    have := h b hb
    simp only [isDigit,Bool.and_eq_true,decide_eq_true_eq,Char.reduceToNat] at this ⊢
    omega
  · rw [digitBytes,List.map_map]
    refine (List.map_id rest).symm.trans (List.map_congr_left fun b hb => ?_)
    have := h b hb
    simp only [isDigit,Bool.and_eq_true,decide_eq_true_eq,Char.reduceToNat] at this
    simp only [id,Function.comp_apply,Char.reduceToNat]
    omega

theorem not_digit_of_mark (h : isExponentMark b = true) : isDigit b = false := by
  simp only [isExponentMark,Bool.or_eq_true,decide_eq_true_eq] at h
  rcases h with rfl | rfl <;> decide

theorem not_digit_of_sign (s : Sign) : isDigit s.byte = false := by cases s <;> decide

theorem isSign_iff : isSign b = true ↔ ∃ s : Sign, b = s.byte := by
  simp only [isSign,Bool.or_eq_true,decide_eq_true_eq]
  constructor
  · rintro (rfl | rfl)
    · exact ⟨.minus,rfl⟩
    · exact ⟨.plus,rfl⟩
  · rintro ⟨s,rfl⟩
    cases s with
    | plus => exact .inr rfl
    | minus => exact .inl rfl

/-! ### Runs of digits -/

/-- The digits that start at a place and what follows them, which starts with no digit. -/
theorem run_split (text : Text) (i : ℕ) : ∃ l, AreDigits l ∧ l.length = digitRun text i ∧
    text.bytes.drop i = digitBytes l ++ text.bytes.drop (i + digitRun text i) := by
  obtain ⟨l,hl,heq⟩ : ∃ l, AreDigits l ∧ (text.bytes.drop i).takeWhile isDigit = digitBytes l :=
    exists_digits fun b hb => List.mem_takeWhile_imp hb
  have hlen : l.length = digitRun text i := by rw [digitRun,heq,digitBytes,List.length_map]
  refine ⟨l,hl,hlen,?_⟩
  rw [← List.drop_drop,digitRun,← heq]
  conv_lhs => rw [← List.takeWhile_append_dropWhile (p := isDigit) (l := text.bytes.drop i)]
  congr 1
  generalize text.bytes.drop i = bs
  have h := congrArg (List.drop (bs.takeWhile isDigit).length) (List.takeWhile_append_dropWhile (p := isDigit) (l := bs))
  rwa [List.drop_left] at h

theorem digitRun_eq (hl : AreDigits l) (h : text.bytes.drop i = digitBytes l ++ rest)
    (hrest : rest.head?.any isDigit = false) : digitRun text i = l.length := by
  have hstop : rest.takeWhile isDigit = [] := by
    cases rest with
    | nil => rfl
    | cons b rest => rw [List.takeWhile_cons_of_neg (by simpa using hrest)]
  rw [digitRun,h,List.takeWhile_append_of_pos fun b hb => digitBytes_digit hl hb,hstop,List.append_nil,digitBytes,
    List.length_map]

theorem drop_cons (h : text.bytes[i]? = some b) : text.bytes.drop i = b :: text.bytes.drop (i + 1) := by
  obtain ⟨hi,rfl⟩ := List.getElem?_eq_some_iff.mp h
  exact List.drop_eq_getElem_cons hi

theorem drop_nil (h : i = text.length) : text.bytes.drop i = [] := List.drop_eq_nil_of_le h.ge

theorem sign_split (text : Text) (i : ℕ) : ∃ sign : Option Sign,
    text.bytes.drop i = signBytes sign ++ text.bytes.drop (i + if text.bytes[i]?.any isSign then 1 else 0) ∧
      (signBytes sign).length = if text.bytes[i]?.any isSign then 1 else 0 := by
  cases hb : text.bytes[i]? with
  | none => exact ⟨none,by simp [signBytes],by simp [signBytes]⟩
  | some b =>
    by_cases hs : isSign b = true
    · obtain ⟨s,rfl⟩ := isSign_iff.mp hs
      exact ⟨some s,by simp [signBytes,hs,drop_cons hb],by simp [signBytes,hs]⟩
    · exact ⟨none,by simp [signBytes,hs],by simp [signBytes,hs]⟩

namespace Spelling

theorem exponent_split (h : text.bytes[i]?.any isExponentMark = true)
    (h0 : digitRun text (i + 1 + if text.bytes[i + 1]?.any isSign then 1 else 0) ≠ 0)
    (hend : i + 1 + (if text.bytes[i + 1]?.any isSign then 1 else 0) +
      digitRun text (i + 1 + if text.bytes[i + 1]?.any isSign then 1 else 0) = text.length) :
    ∃ e : Scientific, text.bytes.drop i = e.bytes := by
  obtain ⟨b,hb,hmark⟩ := (Option.any_eq_true _ _).mp h
  obtain ⟨sign,h1,-⟩ := sign_split text (i + 1)
  obtain ⟨l,h2,h3,h4⟩ := run_split text (i + 1 + if text.bytes[i + 1]?.any isSign then 1 else 0)
  refine ⟨⟨b,sign,l,hmark,fun h => h0 (by rw [← h3,h]; rfl),h2⟩,?_⟩
  rw [drop_cons hb,h1,h4,drop_nil hend,List.append_nil]
  rfl

theorem fraction_split (h : ¬(decide (text.bytes[i]? = some '.'.toNat) && decide (digitRun text (i + 1) = 0)) = true) :
    ∃ fraction, AreDigits fraction ∧ text.bytes.drop i = pointBytes fraction ++
      text.bytes.drop (if decide (text.bytes[i]? = some '.'.toNat) then i + 1 + digitRun text (i + 1) else i) := by
  by_cases hp : text.bytes[i]? = some '.'.toNat
  · obtain ⟨l,h1,h2,h3⟩ := run_split text (i + 1)
    have hne : l ≠ [] := by
      rintro rfl
      rw [hp] at h
      simp [← h2] at h
    refine ⟨l,h1,?_⟩
    rw [decide_eq_true hp,if_pos rfl,drop_cons hp,h3,pointBytes,if_neg hne,List.cons_append]
  · rw [decide_eq_false hp,if_neg Bool.false_ne_true]
    exact ⟨[],fun _ h => (List.not_mem_nil h).elim,rfl⟩

theorem exists_spelling (h : spellsDouble text = true) : ∃ sp : Spelling, text.bytes = sp.bytes := by
  obtain ⟨sign,h1,-⟩ := sign_split text 0
  rw [List.drop_zero,zero_add] at h1
  unfold spellsDouble at h
  dsimp only at h
  set i := if text.bytes[0]?.any isSign then 1 else 0
  obtain ⟨whole,h2,h3,h4⟩ := run_split text i
  split at h
  · cases h
  rename_i hwhole
  set j := i + digitRun text i
  split at h
  · cases h
  rename_i hpoint
  obtain ⟨fraction,h5,h6⟩ := fraction_split hpoint
  set k := if decide (text.bytes[j]? = some '.'.toNat) then j + 1 + digitRun text (j + 1) else j
  have hne : whole ≠ [] := by
    rintro rfl
    exact hwhole h3.symm
  by_cases hmark : text.bytes[k]?.any isExponentMark = true
  · rw [if_pos hmark] at h
    by_cases h0 : digitRun text (k + 1 + if text.bytes[k + 1]?.any isSign then 1 else 0) = 0
    · rw [if_pos h0] at h
      cases h
    · rw [if_neg h0,decide_eq_true_eq] at h
      obtain ⟨e,he⟩ := exponent_split hmark h0 h
      exact ⟨⟨sign,whole,fraction,some e,hne,h2,h5⟩,by rw [h1,h4,h6,he]; rfl⟩
  · rw [if_neg hmark,decide_eq_true_eq] at h
    exact ⟨⟨sign,whole,fraction,none,hne,h2,h5⟩,by rw [h1,h4,h6,drop_nil h]; rfl⟩

/-! ### What is spelled is accepted -/

theorem bytes_ascii (sp : Spelling) : ∀ b ∈ sp.bytes, b < 0x80 := by
  have hsign (s : Option Sign) : ∀ b ∈ signBytes s, b < 0x80 := by
    rcases s with _ | s
    · simp [signBytes]
    · cases s <;> decide
  have hdigits {l : List ℕ} (hl : AreDigits l) : ∀ b ∈ digitBytes l, b < 0x80 := by
    intro b hb
    obtain ⟨d,hd,rfl⟩ := List.mem_map.mp hb
    have := hl d hd
    simp only [Char.reduceToNat]
    omega
  have hmark {b : ℕ} (h : isExponentMark b = true) : b < 0x80 := by
    simp only [isExponentMark,Bool.or_eq_true,decide_eq_true_eq] at h
    rcases h with rfl | rfl <;> decide
  intro b hb
  simp only [bytes,List.mem_append] at hb
  rcases hb with hb | hb | hb | hb
  · exact hsign _ b hb
  · exact hdigits sp.wholeSmall b hb
  · by_cases h0 : sp.fraction = []
    · simp [pointBytes,h0] at hb
    · rw [pointBytes,if_neg h0,List.mem_cons] at hb
      rcases hb with rfl | hb
      · decide
      · exact hdigits sp.fractionSmall b hb
  · cases he : sp.exponent with
    | none => simp [exponentBytes,he] at hb
    | some e =>
      simp only [exponentBytes,he,Option.map_some,Option.getD_some,Scientific.bytes,List.mem_cons,List.mem_append] at hb
      rcases hb with rfl | hb | hb
      · exact hmark e.marks
      · exact hsign _ b hb
      · exact hdigits e.small b hb

def spelled (sp : Spelling) : Text := ⟨sp.bytes,Utf8.valid_ascii sp.bytes_ascii⟩

end Spelling

/-- What is left of a text from a place in it. -/
def Rest (text : Text) (i : ℕ) (rest : List ℕ) : Prop := i + rest.length = text.length ∧ text.bytes.drop i = rest

theorem Rest.head (h : Rest text i rest) : text.bytes[i]? = rest.head? := by
  rw [← h.2,List.head?_drop]

theorem Rest.skip {p : List ℕ} (h : Rest text i (p ++ rest)) : Rest text (i + p.length) rest := by
  refine ⟨by rw [← h.1,List.length_append]; omega,?_⟩
  rw [← List.drop_drop,h.2,List.drop_left]

theorem Rest.tail (h : Rest text i (b :: rest)) : Rest text (i + 1) rest := h.skip (p := [b])

theorem Rest.digits (h : Rest text i (digitBytes l ++ rest)) (hl : AreDigits l) (hrest : rest.head?.any isDigit = false) :
    digitRun text i = l.length ∧ Rest text (i + l.length) rest := by
  have hskip := h.skip
  rw [digitBytes,List.length_map] at hskip
  exact ⟨digitRun_eq hl h.2 hrest,hskip⟩

theorem not_sign_of_digit (h : isDigit b = true) : isSign b = false := by
  simp only [isDigit,Bool.and_eq_true,decide_eq_true_eq,Char.reduceToNat] at h
  simp only [isSign,Bool.or_eq_false_iff,decide_eq_false_iff_not,Char.reduceToNat]
  omega

theorem Rest.sign {sign : Option Sign} (h : Rest text i (signBytes sign ++ (digitBytes l ++ rest))) (hne : l ≠ [])
    (hl : AreDigits l) : Rest text (i + if text.bytes[i]?.any isSign then 1 else 0) (digitBytes l ++ rest) := by
  suffices hlen : (if text.bytes[i]?.any isSign then 1 else 0) = (signBytes sign).length by
    rw [hlen]
    exact h.skip
  rw [h.head]
  rcases sign with _ | s
  · cases l with
    | nil => exact absurd rfl hne
    | cons d l =>
      have hs := not_sign_of_digit (isDigit_add (hl d (List.mem_cons_self ..)))
      simpa [signBytes,digitBytes] using hs
  · simp [signBytes,isSign_iff]

namespace Spelling

theorem exponent_stops (e : Option Scientific) : (exponentBytes e).head?.any isDigit = false := by
  cases e with
  | none => rfl
  | some e => simp [exponentBytes,Scientific.bytes,not_digit_of_mark e.marks]

theorem point_stops (fraction : List ℕ) (e : Option Scientific) :
    (pointBytes fraction ++ exponentBytes e).head?.any isDigit = false := by
  by_cases h : fraction = []
  · rw [pointBytes,if_pos h,List.nil_append]
    exact exponent_stops e
  · rw [pointBytes,if_neg h]
    rfl

theorem fraction_found {fraction : List ℕ} {e : Option Scientific} (hl : AreDigits fraction)
    (h : Rest text i (pointBytes fraction ++ exponentBytes e)) :
    ¬(decide (text.bytes[i]? = some '.'.toNat) && decide (digitRun text (i + 1) = 0)) = true ∧
      Rest text (if decide (text.bytes[i]? = some '.'.toNat) then i + 1 + digitRun text (i + 1) else i) (exponentBytes e) := by
  by_cases h0 : fraction = []
  · rw [pointBytes,if_pos h0,List.nil_append] at h
    have hp : text.bytes[i]? ≠ some '.'.toNat := by
      rw [h.head]
      cases e with
      | none => exact nofun
      | some e =>
        intro hdot
        have hmark := e.marks
        rw [show e.mark = '.'.toNat from Option.some.inj hdot] at hmark
        exact absurd hmark (by decide)
    rw [decide_eq_false hp]
    exact ⟨Bool.false_ne_true,h⟩
  · rw [pointBytes,if_neg h0] at h
    have hp : text.bytes[i]? = some '.'.toNat := h.head
    obtain ⟨hrun,h1⟩ := Rest.digits h.tail hl (exponent_stops e)
    rw [decide_eq_true hp,if_pos rfl,hrun]
    exact ⟨by simpa using h0,h1⟩

theorem spellsDouble_spelled (sp : Spelling) : spellsDouble sp.spelled = true := by
  have h0 : Rest sp.spelled 0 sp.bytes := ⟨Nat.zero_add _,List.drop_zero⟩
  have h1 := Rest.sign h0 sp.nonempty sp.wholeSmall
  rw [zero_add] at h1
  unfold spellsDouble
  dsimp only
  generalize (if sp.spelled.bytes[0]?.any isSign then 1 else 0) = i at h1 ⊢
  obtain ⟨hrun,h2⟩ := h1.digits sp.wholeSmall (point_stops _ _)
  have hwhole : sp.whole.length ≠ 0 := fun h => sp.nonempty (List.length_eq_zero_iff.mp h)
  rw [hrun,if_neg hwhole]
  generalize i + sp.whole.length = j at h2 ⊢
  obtain ⟨hpoint,h3⟩ := fraction_found sp.fractionSmall h2
  rw [if_neg hpoint]
  generalize (if decide (sp.spelled.bytes[j]? = some '.'.toNat) then j + 1 + digitRun sp.spelled (j + 1) else j) = k at h3 ⊢
  cases he : sp.exponent with
  | none =>
    rw [he] at h3
    rw [h3.head]
    exact decide_eq_true h3.1
  | some e =>
    rw [he] at h3
    have hmark : sp.spelled.bytes[k]? = some e.mark := h3.head
    have h4 : Rest sp.spelled (k + 1) (signBytes e.sign ++ (digitBytes e.digits ++ [])) := by
      rw [List.append_nil]
      exact Rest.tail h3
    obtain ⟨hrun,h5⟩ := (h4.sign e.nonempty e.small).digits e.small rfl
    have hlen : e.digits.length ≠ 0 := fun h => e.nonempty (List.length_eq_zero_iff.mp h)
    rw [hmark,Option.any_some,e.marks,if_pos rfl,hrun,if_neg hlen]
    exact decide_eq_true h5.1

end Spelling

theorem spellsDouble_iff (text : Text) : spellsDouble text = true ↔ ∃ sp : Spelling, text = sp.spelled := by
  constructor
  · intro h
    obtain ⟨sp,hsp⟩ := Spelling.exists_spelling h
    exact ⟨sp,Text.ext hsp⟩
  · rintro ⟨sp,rfl⟩
    exact sp.spellsDouble_spelled

end Ens.Number
