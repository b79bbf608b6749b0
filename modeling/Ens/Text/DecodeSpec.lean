import Ens.Text.Decode

/-! # The reading of one character

What a reader says of the bytes at a place is told by these bytes alone: a character stands there, or no character does and so many of them
could still have begun one.
-/
set_option linter.all false
namespace Ens.Decode
open Loop Text Utf8
variable {raw bs rest c : List ℕ} {i a b : ℕ}

/-- How many bytes the first character spans, or 0 when the bytes begin with none. -/
def widthOf : List ℕ → ℕ
  | [] => 0
  | lead :: rest =>
    if leadWidth lead = 0 ∨ rest.length + 1 < leadWidth lead then 0
    else if leadWidth lead = 1 then 1
    else
      match rest with
      | [] => 0
      | second :: rest => if followsLead lead second && (rest.take (leadWidth lead - 2)).all insideCharacter then leadWidth lead else 0

theorem widthOf_cons (lead : ℕ) (rest : List ℕ) : widthOf (lead :: rest) =
    if leadWidth lead = 0 ∨ rest.length + 1 < leadWidth lead then 0
    else if leadWidth lead = 1 then 1
    else
      match rest with
      | [] => 0
      | second :: rest => if followsLead lead second && (rest.take (leadWidth lead - 2)).all insideCharacter then leadWidth lead else 0 := by
  cases rest <;> rfl

/-! ### Bytes -/

theorem entry_ok {T : Type} {raw : List T} {value : T} (h : raw[i]? = some value) : entry raw i = .ok value := by rw [entry,h]

theorem allM_ok {A : Type} {f : A → Except Stop Bool} {p : A → Bool} {l : List A} (h : ∀ x ∈ l, f x = .ok (p x)) :
    l.allM f = .ok (l.all p) := by
  induction l with
  | nil => rfl
  | cons x l ih =>
    rw [List.allM,h x List.mem_cons_self,ok_bind,List.all_cons]
    cases p x with
    | true => exact ih fun y hy => h y (List.mem_cons_of_mem x hy)
    | false => rfl

theorem all_range {p : ℕ → Bool} {n : ℕ} (hn : n ≤ bs.length) : (List.range n).all (fun k => (bs[k]?).any p) = (bs.take n).all p := by
  induction bs generalizing n with
  | nil =>
    obtain rfl : n = 0 := Nat.le_zero.mp hn
    rfl
  | cons b bs ih =>
    cases n with
    | zero => rfl
    | succ n =>
      rw [List.range_succ_eq_map,List.all_cons,List.all_map,List.take_succ_cons,List.all_cons]
      exact congrArg (p b && ·) (ih (Nat.le_of_succ_le_succ hn))

theorem drop_of_lt (hi : i < raw.length) : ∃ lead rest, raw.drop i = lead :: rest ∧ raw[i]? = some lead ∧ rest = raw.drop (i + 1) :=
  ⟨raw[i],raw.drop (i + 1),List.drop_eq_getElem_cons hi,List.getElem?_eq_getElem hi,rfl⟩

/-- The bytes after the first two of a character are looked at one by one. -/
theorem inside_ok {n : ℕ} (hn : i + 2 + n ≤ raw.length) :
    (List.range n).allM (fun k => do .ok (insideCharacter (← entry raw (i + 2 + k)))) =
      .ok (((raw.drop (i + 2)).take n).all insideCharacter) := by
  have hbyte : ∀ k ∈ List.range n, (do .ok (insideCharacter (← entry raw (i + 2 + k))) : Except Stop Bool) =
      .ok (((raw.drop (i + 2))[k]?).any insideCharacter) := by
    intro k hk
    have hlt : i + 2 + k < raw.length := by
      have := List.mem_range.mp hk
      omega
    rw [entry_ok (List.getElem?_eq_getElem hlt),ok_bind,List.getElem?_drop,List.getElem?_eq_getElem hlt]
    rfl
  rw [allM_ok hbyte,all_range (by rw [List.length_drop]; omega)]

theorem characterWidth_eq (hi : i < raw.length) : characterWidth raw i = .ok (widthOf (raw.drop i)) := by
  obtain ⟨lead,rest,hdrop,hlead,hrest⟩ := drop_of_lt hi
  have hlen : raw.length - i = rest.length + 1 := by
    rw [← List.length_drop,hdrop,List.length_cons]
  rw [characterWidth,entry_ok hlead,ok_bind,hdrop,widthOf_cons]
  by_cases hnone : leadWidth lead = 0 ∨ rest.length + 1 < leadWidth lead
  · rw [if_pos hnone,if_pos (by omega)]
  · rw [if_neg hnone,if_neg (by omega)]
    by_cases hone : leadWidth lead = 1
    · rw [if_pos hone,if_pos hone]
    · rw [if_neg hone,if_neg hone]
      have hi' : i + 1 < raw.length := by omega
      obtain ⟨second,rest',hdrop',hsecond,hrest'⟩ := drop_of_lt hi'
      subst hrest
      rw [hdrop'] at hlen hnone ⊢
      rw [List.length_cons] at hlen hnone
      rw [entry_ok hsecond,ok_bind,inside_ok (by omega),ok_bind,show i + 2 = i + 1 + 1 from rfl,← hrest']
      dsimp only
      cases followsLead lead second with
      | false => rfl
      | true =>
        cases (rest'.take (leadWidth lead - 2)).all insideCharacter <;> rfl

/-! ### Characters -/

theorem insideCharacter_iff : insideCharacter b = true ↔ Tail b := by
  rw [insideCharacter,Bool.and_eq_true,decide_eq_true_eq,decide_eq_true_eq,Tail]

theorem followsLead_iff : followsLead a b = true ↔
    (if a = 0xE0 then 0xA0 else if a = 0xF0 then 0x90 else 0x80) ≤ b ∧ b ≤ if a = 0xED then 0x9F else if a = 0xF4 then 0x8F else 0xBF := by
  rw [followsLead,Bool.and_eq_true,decide_eq_true_eq,decide_eq_true_eq]

theorem leadWidth_cases (a : ℕ) :
    (leadWidth a = 1 ∧ a < 0x80) ∨ (leadWidth a = 2 ∧ 0xC2 ≤ a ∧ a ≤ 0xDF) ∨ (leadWidth a = 3 ∧ 0xE0 ≤ a ∧ a ≤ 0xEF) ∨
      (leadWidth a = 4 ∧ 0xF0 ≤ a ∧ a ≤ 0xF4) ∨ (leadWidth a = 0 ∧ ((0x80 ≤ a ∧ a < 0xC2) ∨ 0xF4 < a)) := by
  rw [leadWidth]
  split_ifs <;> omega

theorem followsLead_cases : followsLead a b = true ↔
    (a = 0xE0 ∧ 0xA0 ≤ b ∧ b ≤ 0xBF) ∨ (a = 0xED ∧ 0x80 ≤ b ∧ b ≤ 0x9F) ∨ (a = 0xF0 ∧ 0x90 ≤ b ∧ b ≤ 0xBF) ∨
      (a = 0xF4 ∧ 0x80 ≤ b ∧ b ≤ 0x8F) ∨ (a ≠ 0xE0 ∧ a ≠ 0xED ∧ a ≠ 0xF0 ∧ a ≠ 0xF4 ∧ Tail b) := by
  rw [followsLead_iff,Tail]
  constructor
  · intro h
    split_ifs at h <;> omega
  · intro h
    split_ifs <;> omega

/-- How the lead byte of a character and the one after it go together. -/
theorem two_iff : leadWidth a = 2 ∧ followsLead a b = true ↔ 0xC2 ≤ a ∧ a ≤ 0xDF ∧ Tail b := by
  rw [followsLead_cases]
  have hcases := leadWidth_cases a
  constructor
  · rintro ⟨hw,hf⟩
    exact ⟨by omega,by omega,by unfold Tail at *; omega⟩
  · rintro ⟨h1,h2,hb⟩
    exact ⟨by omega,.inr (.inr (.inr (.inr ⟨by omega,by omega,by omega,by omega,hb⟩)))⟩

theorem three_iff : leadWidth a = 3 ∧ followsLead a b = true ↔ Three a b := by
  rw [followsLead_cases]
  have hcases := leadWidth_cases a
  unfold Three Tail at *
  constructor
  · rintro ⟨hw,hf⟩
    omega
  · intro h
    exact ⟨by omega,by omega⟩

theorem four_iff : leadWidth a = 4 ∧ followsLead a b = true ↔ Four a b := by
  rw [followsLead_cases]
  have hcases := leadWidth_cases a
  unfold Four Tail at *
  constructor
  · rintro ⟨hw,hf⟩
    omega
  · intro h
    exact ⟨by omega,by omega⟩

theorem leadWidth_one : leadWidth a = 1 ↔ a < 0x80 := by
  have hcases := leadWidth_cases a
  constructor <;> intro h <;> omega

/-- A character is found where it stands. -/
theorem widthOf_char (h : Char c) (rest : List ℕ) : widthOf (c ++ rest) = c.length := by
  cases h with
  | one ha =>
    rw [List.cons_append,widthOf_cons,leadWidth_one.2 ha]
    simp
  | @two a b h1 h2 hb =>
    obtain ⟨hw,hf⟩ := two_iff.2 ⟨h1,h2,hb⟩
    simp [widthOf_cons,hw,hf]
  | @three a b c hab hc =>
    obtain ⟨hw,hf⟩ := three_iff.2 hab
    have hinside := insideCharacter_iff.2 hc
    simp [widthOf_cons,hw,hf,hinside]
  | @four a b c d hab hc hd =>
    obtain ⟨hw,hf⟩ := four_iff.2 hab
    have hinside := insideCharacter_iff.2 hc
    have hinside' := insideCharacter_iff.2 hd
    simp [widthOf_cons,hw,hf,hinside,hinside']

theorem char_of_widthOf (h : 0 < widthOf bs) : ∃ c rest, bs = c ++ rest ∧ Char c ∧ c.length = widthOf bs := by
  cases bs with
  | nil => cases h
  | cons a bs =>
    rw [widthOf_cons] at h ⊢
    by_cases hnone : leadWidth a = 0 ∨ bs.length + 1 < leadWidth a
    · rw [if_pos hnone] at h
      cases h
    rw [if_neg hnone] at h ⊢
    by_cases hone : leadWidth a = 1
    · rw [if_pos hone]
      exact ⟨[a],bs,rfl,.one (leadWidth_one.1 hone),rfl⟩
    rw [if_neg hone] at h ⊢
    cases bs with
    | nil => cases h
    | cons b bs =>
      dsimp only at h ⊢
      by_cases hboth : (followsLead a b && (bs.take (leadWidth a - 2)).all insideCharacter) = true
      · rw [if_pos hboth]
        rw [Bool.and_eq_true] at hboth
        obtain ⟨hfollows,hinside⟩ := hboth
        have hcases := leadWidth_cases a
        rw [not_or,List.length_cons] at hnone
        have hwidth : leadWidth a = 2 ∨ leadWidth a = 3 ∨ leadWidth a = 4 := by omega
        rcases hwidth with hw | hw | hw
        · obtain ⟨h1,h2,hb⟩ := two_iff.1 ⟨hw,hfollows⟩
          exact ⟨[a,b],bs,rfl,.two h1 h2 hb,hw.symm⟩
        · rw [hw] at hnone hinside
          match bs,hnone,hinside with
          | [],hnone,_ => simp at hnone
          | x :: bs,_,hinside =>
            have hx : Tail x := insideCharacter_iff.1 (by simpa using hinside)
            exact ⟨[a,b,x],bs,rfl,.three (three_iff.1 ⟨hw,hfollows⟩) hx,hw.symm⟩
        · rw [hw] at hnone hinside
          match bs,hnone,hinside with
          | [],hnone,_ => simp at hnone
          | [x],hnone,_ => simp at hnone
          | x :: y :: bs,_,hinside =>
            have hxy : insideCharacter x = true ∧ insideCharacter y = true := by simpa using hinside
            exact ⟨[a,b,x,y],bs,rfl,.four (four_iff.1 ⟨hw,hfollows⟩) (insideCharacter_iff.1 hxy.1) (insideCharacter_iff.1 hxy.2),hw.symm⟩
      · rw [if_neg hboth] at h
        cases h

/-- Where nothing is found no character stands. -/
theorem no_char (h : widthOf bs = 0) (hc : Char c) : ¬c <+: bs := by
  rintro ⟨rest,rfl⟩
  rw [widthOf_char hc] at h
  exact absurd hc.length_pos (by omega)

/-- The first character of well-formed bytes is the only one they begin with. -/
theorem valid_cons_iff (hc : Char c) : Valid (c ++ rest) ↔ Valid rest := by
  constructor
  · intro h
    generalize hbs : c ++ rest = bs at h
    cases h with
    | nil =>
      have hnil := List.append_eq_nil_iff.mp hbs
      exact absurd hc.length_pos (by rw [hnil.1]; exact Nat.lt_irrefl 0)
    | @cons c' rest' hc' hrest' =>
      have hlen : c.length = c'.length := by rw [← widthOf_char hc rest,hbs,widthOf_char hc' rest']
      obtain ⟨-,rfl⟩ := List.append_inj hbs hlen
      exact hrest'
  · exact fun h => .cons hc h

theorem not_valid (h : widthOf bs = 0) (hne : bs ≠ []) : ¬Valid bs := by
  intro hv
  cases hv with
  | nil => exact hne rfl
  | cons hc _ => exact no_char h hc (List.prefix_append _ _)

/-! ### Malformed parts -/

/-- Bytes that a character could still begin with. -/
def Begins (w : List ℕ) : Prop := ∃ v, Char (w ++ v)

/-- Some bytes at the start of others that no character begins with: all that could still have been the start of one, or one byte. -/
structure Malformed (w rest : List ℕ) : Prop where
  some : w ≠ []
  none : ∀ c, Char c → ¬c <+: w ++ rest
  most : ∀ v, v <+: w ++ rest → Begins v → v.length ≤ w.length
  begins : w.length = 1 ∨ Begins w

inductive Lossy : List ℕ → List ℕ → Prop
  | nil : Lossy [] []
  | keep {c data out : List ℕ} : Char c → Lossy data out → Lossy (c ++ data) (c ++ out)
  | replace {w data out : List ℕ} : Malformed w data → Lossy data out → Lossy (w ++ data) (0xEF :: 0xBF :: 0xBD :: out)

theorem replacement_char : Char [0xEF,0xBF,0xBD] := .three (by unfold Three Tail; omega) (by unfold Tail; omega)

theorem Lossy.valid {data out : List ℕ} (h : Lossy data out) : Valid out := by
  induction h with
  | nil => exact .nil
  | keep hc _ ih => exact .cons hc ih
  | replace _ _ ih => exact .cons replacement_char ih

theorem lossy_valid {data : List ℕ} (h : Valid data) : Lossy data data := by
  induction h with
  | nil => exact .nil
  | cons hc _ ih => exact .keep hc ih

theorem char_cons_iff {v : List ℕ} : Char (a :: b :: v) ↔
    followsLead a b = true ∧ v.length + 2 = leadWidth a ∧ ∀ x ∈ v, Tail x := by
  constructor
  · intro h
    cases h with
    | two h1 h2 hb =>
      obtain ⟨hw,hf⟩ := two_iff.2 ⟨h1,h2,hb⟩
      exact ⟨hf,hw.symm,fun x hx => absurd hx List.not_mem_nil⟩
    | three hab hc =>
      obtain ⟨hw,hf⟩ := three_iff.2 hab
      exact ⟨hf,hw.symm,by simpa using hc⟩
    | four hab hc hd =>
      obtain ⟨hw,hf⟩ := four_iff.2 hab
      exact ⟨hf,hw.symm,by simpa using ⟨hc,hd⟩⟩
  · rintro ⟨hf,hlen,htail⟩
    have hcases := leadWidth_cases a
    match v,hlen,htail with
    | [],hlen,_ =>
      obtain ⟨h1,h2,hb⟩ := two_iff.1 ⟨hlen.symm,hf⟩
      exact .two h1 h2 hb
    | [x],hlen,htail => exact .three (three_iff.1 ⟨hlen.symm,hf⟩) (htail x (by simp))
    | [x,y],hlen,htail => exact .four (four_iff.1 ⟨hlen.symm,hf⟩) (htail x (by simp)) (htail y (by simp))
    | x :: y :: z :: v,hlen,_ =>
      simp only [List.length_cons] at hlen
      omega

theorem char_one_iff : Char [a] ↔ a < 0x80 :=
  ⟨fun h => by cases h; assumption,.one⟩

/-- What can begin a character begins with a lead byte and has no more bytes than this says. -/
theorem Begins.lead {v : List ℕ} (h : Begins (a :: v)) : v.length + 1 ≤ leadWidth a := by
  obtain ⟨w,hw⟩ := h
  rw [List.cons_append] at hw
  cases hr : v ++ w with
  | nil =>
    obtain ⟨rfl,rfl⟩ := List.append_eq_nil_iff.mp hr
    exact (leadWidth_one.2 (char_one_iff.1 hw)).ge
  | cons b r =>
    have hlen := (char_cons_iff.1 (hr ▸ hw)).2.1
    have hsum := congrArg List.length hr
    rw [List.length_append,List.length_cons] at hsum
    omega

theorem begins_cons_iff {v : List ℕ} : Begins (a :: b :: v) ↔ followsLead a b = true ∧ v.length + 2 ≤ leadWidth a ∧ ∀ x ∈ v, Tail x := by
  constructor
  · rintro ⟨w,hw⟩
    rw [List.cons_append,List.cons_append] at hw
    obtain ⟨hf,hlen,htail⟩ := char_cons_iff.1 hw
    rw [List.length_append] at hlen
    exact ⟨hf,by omega,fun x hx => htail x (List.mem_append_left _ hx)⟩
  · rintro ⟨hf,hlen,htail⟩
    refine ⟨List.replicate (leadWidth a - (v.length + 2)) 0x80,?_⟩
    rw [List.cons_append,List.cons_append]
    refine char_cons_iff.2 ⟨hf,?_,fun x hx => ?_⟩
    · rw [List.length_append,List.length_replicate]
      omega
    · rcases List.mem_append.mp hx with hx | hx
      · exact htail x hx
      · obtain rfl := List.eq_of_mem_replicate hx
        unfold Tail
        omega

end Ens.Decode
