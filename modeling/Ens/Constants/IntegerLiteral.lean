import Ens.Constants.Values
import Ens.Number.Radix
import Ens.Text.Utf8

/-! # Integer literals

The separators and the suffix of a literal are dropped, its first two characters select its base, and its digits are gathered as long as
there is room for them.
-/
namespace Ens.Constants
open Number

/-- What digit the byte spells, or -1 when it spells none. -/
def digitValue (value : ℕ) : ℤ :=
  if '0'.toNat ≤ value ∧ value ≤ '9'.toNat then (value : ℤ) - '0'.toNat
  else if 'a'.toNat ≤ value ∧ value ≤ 'f'.toNat then (value : ℤ) - 'a'.toNat + 10
  else if 'A'.toNat ≤ value ∧ value ≤ 'F'.toNat then (value : ℤ) - 'A'.toNat + 10
  else -1

def isIgnored (value : ℕ) : Bool := value = '_'.toNat ∨ value = 'l'.toNat ∨ value = 'L'.toNat

def baseOf (digits : List ℕ) : ℕ × ℕ :=
  if 2 < digits.length ∧ digits[0]? = some '0'.toNat ∧ (digits[1]? = some 'x'.toNat ∨ digits[1]? = some 'X'.toNat) then (16,2)
  else if 2 < digits.length ∧ digits[0]? = some '0'.toNat ∧ (digits[1]? = some 'b'.toNat ∨ digits[1]? = some 'B'.toNat) then (2,2)
  else if 2 < digits.length ∧ digits[0]? = some '0'.toNat ∧ (digits[1]? = some 'o'.toNat ∨ digits[1]? = some 'O'.toNat) then (8,2)
  else (10,0)

/-- One digit more, in the 64 bits of a magnitude. -/
def scaleMagnitude (base value byte : ℕ) : Option ℕ :=
  let digit := digitValue byte
  if digit < 0 ∨ (base : ℤ) ≤ digit then none
  else
    let step := digit.toNat
    if value > (ceiling - step) / base then none else some ((value * base + step) % 2 ^ 64)

def integerMagnitude (text : Name) : Option ℕ :=
  let raw := text.flatMap fun c => Utf8.encode c.toNat
  let digits := raw.filter fun value => !isIgnored value
  let (base,start) := baseOf digits
  if start = digits.length then none else (digits.drop start).foldlM (scaleMagnitude base) 0

/-! ### What a literal spells -/

inductive Base
  | decimal | hexadecimal | octal | binary
  deriving DecidableEq

def Base.radix : Base → ℕ
  | .decimal => 10
  | .hexadecimal => 16
  | .octal => 8
  | .binary => 2

def Base.marks : Base → List Name
  | .decimal => [[]]
  | .hexadecimal => [['0','x'],['0','X']]
  | .octal => [['0','o'],['0','O']]
  | .binary => [['0','b'],['0','B']]

/-- A literal spells the number its digits denote. Separators may stand among the digits, and a suffix may end it. -/
def Spells (text : Name) (value : ℕ) : Prop :=
  ∃ (base : Base) (mark body suffix : Name) (digits : List ℕ),
    text = mark ++ body ++ suffix ∧ mark ∈ base.marks ∧ suffix ∈ [[],['l'],['L']] ∧ digits ≠ [] ∧
    List.Forall₂ (fun c digit => digit < base.radix ∧ Radix.Spells c.toNat digit) (body.filter fun c => c ≠ '_') digits ∧
    value = Radix.valueFrom base.radix 0 digits

/-! ### Gathering digits -/

variable {base : Base} {value byte digit : ℕ}

theorem Base.radix_bounds (base : Base) : 2 ≤ base.radix ∧ base.radix ≤ 16 := by cases base <;> decide

/-- The value of a digit below 16 reads the same from every byte that spells it. -/
theorem digitValue_spelled (hd : digit < 16) (h : Radix.Spells byte digit) : digitValue byte = digit := by
  have h0 : '0'.toNat = 48 := rfl
  have h9 : '9'.toNat = 57 := rfl
  have ha : 'a'.toNat = 97 := rfl
  have hf : 'f'.toNat = 102 := rfl
  have hA : 'A'.toNat = 65 := rfl
  have hF : 'F'.toNat = 70 := rfl
  rw [Radix.Spells,h0,ha,hA] at h
  rw [digitValue,h0,h9,ha,hf,hA,hF]
  split_ifs <;> omega

theorem spelled_ascii (h : Radix.Spells byte digit) : byte < 128 := by
  have h0 : '0'.toNat = 48 := rfl
  have ha : 'a'.toNat = 97 := rfl
  have hA : 'A'.toNat = 65 := rfl
  rw [Radix.Spells,h0,ha,hA] at h
  omega

theorem scaleMagnitude_eq (hd : digit < base.radix) (h : Radix.Spells byte digit) :
    scaleMagnitude base.radix value byte = if value * base.radix + digit ≤ ceiling then some (value * base.radix + digit) else none := by
  obtain ⟨hlow,hhigh⟩ := base.radix_bounds
  have hceiling : ceiling = 18446744073709551615 := rfl
  have hroom : value > (ceiling - digit) / base.radix ↔ ¬value * base.radix + digit ≤ ceiling := by
    rw [gt_iff_lt,Nat.div_lt_iff_lt_mul (by omega)]
    omega
  rw [scaleMagnitude,digitValue_spelled (hd.trans_le hhigh) h]
  dsimp only
  rw [if_neg (by omega),Int.toNat_natCast]
  by_cases hfits : value * base.radix + digit ≤ ceiling
  · rw [if_neg fun hpast => hroom.mp hpast hfits,if_pos hfits,Nat.mod_eq_of_lt (by omega)]
  · rw [if_pos (hroom.mpr hfits),if_neg hfits]

/-- Digits are gathered as long as the number they denote has room. -/
theorem foldlM_scaleMagnitude {bytes digits : List ℕ}
    (h : List.Forall₂ (fun byte digit => digit < base.radix ∧ Radix.Spells byte digit) bytes digits) (hv : value ≤ ceiling) :
    bytes.foldlM (scaleMagnitude base.radix) value
      = if Radix.valueFrom base.radix value digits ≤ ceiling then some (Radix.valueFrom base.radix value digits) else none := by
  induction h generalizing value with
  | nil => exact (if_pos hv).symm
  | @cons byte digit bytes digits hfirst _ ih =>
    have hcons : Radix.valueFrom base.radix value (digit :: digits) = Radix.valueFrom base.radix (value * base.radix + digit) digits := rfl
    rw [List.foldlM_cons,scaleMagnitude_eq hfirst.1 hfirst.2,hcons]
    by_cases hfits : value * base.radix + digit ≤ ceiling
    · rw [if_pos hfits]
      exact ih hfits
    · have hge := Radix.valueFrom_ge (Nat.le_of_succ_le base.radix_bounds.1) (value * base.radix + digit) digits
      rw [if_neg hfits,if_neg fun hle => hfits (hge.trans hle)]
      rfl

/-! ### The bytes of a literal -/

theorem encode_ascii {text : Name} (h : ∀ c ∈ text, c.toNat < 128) : (text.flatMap fun c => Utf8.encode c.toNat) = text.map Char.toNat := by
  induction text with
  | nil => rfl
  | cons c text ih =>
    rw [List.flatMap_cons,List.map_cons,ih fun d hd => h d (List.mem_cons_of_mem _ hd),Utf8.encode,if_pos (h c List.mem_cons_self)]
    rfl

/-- A character that spells a digit below 16 is neither a separator nor a suffix. -/
theorem spelled_kept {c : Char} (hd : digit < 16) (h : Radix.Spells c.toNat digit) : isIgnored c.toNat = false := by
  have h0 : '0'.toNat = 48 := rfl
  have ha : 'a'.toNat = 97 := rfl
  have hA : 'A'.toNat = 65 := rfl
  have hu : '_'.toNat = 95 := rfl
  have hl : 'l'.toNat = 108 := rfl
  have hL : 'L'.toNat = 76 := rfl
  rw [Radix.Spells,h0,ha,hA] at h
  rw [isIgnored,hu,hl,hL,decide_eq_false_iff_not]
  omega

variable {mark body suffix : Name} {digits : List ℕ}

theorem filter_body
    (h : List.Forall₂ (fun (c : Char) digit => digit < base.radix ∧ Radix.Spells c.toNat digit) (body.filter fun c => c ≠ '_') digits) :
    body.filter (fun c => !isIgnored c.toNat) = body.filter fun c => c ≠ '_' := by
  have hspelled : ∀ c ∈ body.filter (fun c => c ≠ '_'), isIgnored c.toNat = false := by
    intro c hc
    obtain ⟨i,hi,rfl⟩ := List.getElem_of_mem hc
    obtain ⟨hlt,hspells⟩ := h.get hi (by rw [← h.length_eq]; exact hi)
    exact spelled_kept (by have := base.radix_bounds; omega) hspells
  refine List.filter_congr fun c hc => ?_
  by_cases hu : c = '_'
  · subst hu
    rfl
  · rw [hspelled c (List.mem_filter.mpr ⟨hc,decide_eq_true hu⟩),decide_eq_true hu]
    rfl

theorem mark_kept (hmark : mark ∈ base.marks) : mark.filter (fun c => !isIgnored c.toNat) = mark := by
  cases base <;> simp only [Base.marks,List.mem_cons,List.not_mem_nil,or_false] at hmark <;> rcases hmark with rfl | rfl <;> rfl

theorem suffix_dropped (hsuffix : suffix ∈ [[],['l'],['L']]) : suffix.filter (fun c => !isIgnored c.toNat) = [] := by
  simp only [List.mem_cons,List.not_mem_nil,or_false] at hsuffix
  rcases hsuffix with rfl | rfl | rfl <;> rfl

theorem mark_ascii (hmark : mark ∈ base.marks) : ∀ c ∈ mark, c.toNat < 128 := by
  cases base <;> simp only [Base.marks,List.mem_cons,List.not_mem_nil,or_false] at hmark <;> rcases hmark with rfl | rfl <;> simp

theorem suffix_ascii (hsuffix : suffix ∈ [[],['l'],['L']]) : ∀ c ∈ suffix, c.toNat < 128 := by
  simp only [List.mem_cons,List.not_mem_nil,or_false] at hsuffix
  rcases hsuffix with rfl | rfl | rfl <;> simp

theorem body_ascii
    (h : List.Forall₂ (fun (c : Char) digit => digit < base.radix ∧ Radix.Spells c.toNat digit) (body.filter fun c => c ≠ '_') digits) :
    ∀ c ∈ body, c.toNat < 128 := by
  intro c hc
  by_cases hu : c = '_'
  · subst hu
    decide
  · have hmem : c ∈ body.filter fun c => c ≠ '_' := List.mem_filter.mpr ⟨hc,decide_eq_true hu⟩
    obtain ⟨i,hi,hget⟩ := List.getElem_of_mem hmem
    obtain ⟨-,hspells⟩ := h.get hi (by rw [← h.length_eq]; exact hi)
    rw [List.get_eq_getElem,hget] at hspells
    exact spelled_ascii hspells

theorem baseOf_marked {bytes : List ℕ} (hmark : mark ∈ base.marks)
    (h : List.Forall₂ (fun byte digit => digit < base.radix ∧ Radix.Spells byte digit) bytes digits) (hne : digits ≠ []) :
    baseOf (mark.map Char.toNat ++ bytes) = (base.radix,mark.length) := by
  have hlength : 0 < bytes.length := by
    rw [h.length_eq]
    exact List.length_pos_of_ne_nil hne
  cases base with
  | decimal =>
    cases List.mem_singleton.mp hmark
    have hsecond : ∀ byte, bytes[1]? = some byte → byte ≤ '9'.toNat := by
      intro byte hbyte
      obtain ⟨hi,hget⟩ := List.getElem?_eq_some_iff.mp hbyte
      obtain ⟨hlt,hspells⟩ := h.get hi (by rw [← h.length_eq]; exact hi)
      rw [List.get_eq_getElem,hget] at hspells
      have h0 : '0'.toNat = 48 := rfl
      have h9 : '9'.toNat = 57 := rfl
      rw [Radix.Spells,h0] at hspells
      rw [h9]
      have hradix : Base.decimal.radix = 10 := rfl
      omega
    have hnot : ∀ letter, '9'.toNat < letter → bytes[1]? ≠ some letter := fun letter hl he => absurd (hsecond letter he) (by omega)
    simp only [baseOf,List.map_nil,List.nil_append,hnot _ (show '9'.toNat < 'x'.toNat by decide),
      hnot _ (show '9'.toNat < 'X'.toNat by decide),hnot _ (show '9'.toNat < 'b'.toNat by decide),
      hnot _ (show '9'.toNat < 'B'.toNat by decide),hnot _ (show '9'.toNat < 'o'.toNat by decide),
      hnot _ (show '9'.toNat < 'O'.toNat by decide),or_false,and_false,if_false]
    rfl
  | hexadecimal | octal | binary =>
    simp only [Base.marks,List.mem_cons,List.not_mem_nil,or_false] at hmark
    rcases hmark with rfl | rfl <;> simp [baseOf,Base.radix,hlength]

/-- A literal that spells a number has its magnitude, unless it is beyond every integer. -/
theorem integerMagnitude_spelled {text : Name} (h : Spells text value) :
    integerMagnitude text = if value ≤ ceiling then some value else none := by
  obtain ⟨base,mark,body,suffix,digits,rfl,hmark,hsuffix,hne,hdigits,rfl⟩ := h
  have hascii : ∀ c ∈ mark ++ body ++ suffix, c.toNat < 128 := by
    intro c hc
    rcases List.mem_append.mp hc with hc | hc
    · exact (List.mem_append.mp hc).elim (mark_ascii hmark c) (body_ascii hdigits c)
    · exact suffix_ascii hsuffix c hc
  have hkept : ((mark ++ body ++ suffix).map Char.toNat).filter (fun value => !isIgnored value)
      = mark.map Char.toNat ++ (body.filter fun c => c ≠ '_').map Char.toNat := by
    have hfilter : (mark ++ body ++ suffix).filter (fun c => !isIgnored c.toNat) = mark ++ body.filter fun c => c ≠ '_' := by
      rw [List.filter_append,List.filter_append,mark_kept hmark,filter_body hdigits,suffix_dropped hsuffix,List.append_nil]
    rw [List.filter_map,← List.map_append,← hfilter]
    rfl
  have hbytes : List.Forall₂ (fun byte digit => digit < base.radix ∧ Radix.Spells byte digit)
      ((body.filter fun c => c ≠ '_').map Char.toNat) digits := List.forall₂_map_left_iff.mpr hdigits
  have hlength : ((body.filter fun c => c ≠ '_').map Char.toNat).length ≠ 0 := by
    rw [hbytes.length_eq]
    exact (List.length_pos_of_ne_nil hne).ne'
  rw [integerMagnitude,encode_ascii hascii]
  dsimp only
  rw [hkept,baseOf_marked hmark hbytes hne]
  dsimp only
  rw [if_neg (by rw [List.length_append,List.length_map]; omega),List.drop_left' (List.length_map _),foldlM_scaleMagnitude hbytes (Nat.zero_le _)]

example : integerMagnitude ['0','x','F','_','f','L'] = some 255 := by decide

end Ens.Constants
