import Ens.Json.Reader
import Ens.Logic.Yields

/-! # The grammar of JSON

What a JSON text is, by relations between the bytes before and after each part of it. A value
nests within a number of levels, and the escapes that a text breaks off at are those inside a
string that everything before it leads to.
-/
set_option linter.all false
namespace Ens.Json

abbrev Bytes := List ℕ

/-- Bytes that meet a condition, possibly none. -/
def Run (p : ℕ → Bool) (s t : Bytes) : Prop := ∃ w, s = w ++ t ∧ ∀ b ∈ w, p b = true

abbrev Ws : Bytes → Bytes → Prop := Run isWhitespace

/-! ### Numbers -/

inductive Digits : Bytes → Bytes → Prop
  | mk {b : ℕ} {s t : Bytes} : isDigit b = true → Run isDigit s t → Digits (b :: s) t

inductive Minus : Bytes → Bytes → Prop
  | absent {s : Bytes} : Minus s s
  | present {s : Bytes} : Minus ('-'.toNat :: s) s

inductive Whole : Bytes → Bytes → Prop
  | zero {s : Bytes} : Whole ('0'.toNat :: s) s
  | digits {b : ℕ} {s t : Bytes} : b ≠ '0'.toNat → Digits (b :: s) t → Whole (b :: s) t

inductive Fraction : Bytes → Bytes → Prop
  | absent {s : Bytes} : Fraction s s
  | present {s t : Bytes} : Digits s t → Fraction ('.'.toNat :: s) t

inductive Sign : Bytes → Bytes → Prop
  | absent {s : Bytes} : Sign s s
  | present {b : ℕ} {s : Bytes} : isSign b = true → Sign (b :: s) s

inductive Exponent : Bytes → Bytes → Prop
  | absent {s : Bytes} : Exponent s s
  | present {b : ℕ} {s u t : Bytes} : isExponentMark b = true → Sign s u → Digits u t → Exponent (b :: s) t

inductive Number : Bytes → Bytes → Prop
  | mk {s u v w t : Bytes} : Minus s u → Whole u v → Fraction v w → Exponent w t → Number s t

/-! ### Strings -/

inductive Hex4 : Bytes → ℕ → Bytes → Prop
  | mk {a b c d w x y z : ℕ} {t : Bytes} : hexValue a = some w → hexValue b = some x → hexValue c = some y →
      hexValue d = some z → Hex4 (a :: b :: c :: d :: t) (((w * 16 + x) * 16 + y) * 16 + z) t

/-- The letters of the escapes that do not stand for themselves. -/
def letters : List (Char × ℕ) := [('b',8),('f',12),('n',10),('r',13),('t',9)]

inductive Escape : Bytes → Bytes → Bytes → Prop
  | itself {c : ℕ} {t : Bytes} : c = '"'.toNat ∨ c = '\\'.toNat ∨ c = '/'.toNat → Escape (c :: t) [c] t
  | letter {c : Char} {code : ℕ} {t : Bytes} : (c,code) ∈ letters → Escape (c.toNat :: t) [code] t
  | unicode {code : ℕ} {s t : Bytes} : Hex4 s code t → Utf8.Scalar code →
      Escape ('u'.toNat :: s) (Utf8.encode code) t
  | pair {high low : ℕ} {s u t : Bytes} : Hex4 s high ('\\'.toNat :: 'u'.toNat :: u) → Hex4 u low t →
      0xD800 ≤ high → high ≤ 0xDBFF → 0xDC00 ≤ low → low ≤ 0xDFFF →
      Escape ('u'.toNat :: s) (Utf8.encode (0x10000 + (high - 0xD800) * 0x400 + (low - 0xDC00))) t

inductive Body : Bytes → Bytes → Bytes → Prop
  | nil {s : Bytes} : Body s [] s
  | plain {b : ℕ} {s d t : Bytes} : 0x20 ≤ b → b ≠ '"'.toNat → b ≠ '\\'.toNat → Body s d t →
      Body (b :: s) (b :: d) t
  | escape {s e u d t : Bytes} : Escape s e u → Body u d t → Body ('\\'.toNat :: s) (e ++ d) t

inductive Quoted : Bytes → Text → Bytes → Prop
  | mk {s t : Bytes} {v : Text} : Body s v.bytes ('"'.toNat :: t) → Quoted ('"'.toNat :: s) v t

/-! ### Values -/

abbrev Reads (A : Type) := Bytes → A → Bytes → Prop

inductive Listed {A : Type} (item : Reads A) : Reads (List A)
  | nil {s : Bytes} : Listed item s [] s
  | cons {s u w x t : Bytes} {v : A} {vs : List A} : item s v u → Ws u (','.toNat :: w) → Ws w x →
      Listed item x vs t → Listed item s (v :: vs) t

inductive Member (inner : Reads Json) : Reads (Text × Json)
  | mk {s u w x t : Bytes} {key : Text} {v : Json} : Quoted s key u → Ws u (':'.toNat :: w) → Ws w x →
      inner x v t → Member inner s (key,v) t

/-- No key is there twice, where that is asked. -/
def Distinct (allowDuplicateKeys : Bool) (members : List (Text × Json)) : Prop :=
  allowDuplicateKeys = true ∨ (members.map Prod.fst).Nodup

inductive Shape (allowDuplicateKeys : Bool) (inner : Reads Json) : Reads Json
  | null {t : Bytes} : Shape allowDuplicateKeys inner (utf8 "null" ++ t) .null t
  | true {t : Bytes} : Shape allowDuplicateKeys inner (utf8 "true" ++ t) (.bool .true) t
  | false {t : Bytes} : Shape allowDuplicateKeys inner (utf8 "false" ++ t) (.bool .false) t
  | number {t : Bytes} {v : Text} : Number (v.bytes ++ t) t →
      Shape allowDuplicateKeys inner (v.bytes ++ t) (.number v) t
  | string {s t : Bytes} {v : Text} : Quoted s v t → Shape allowDuplicateKeys inner s (.string v) t
  | emptyArray {s t : Bytes} : Ws s (']'.toNat :: t) →
      Shape allowDuplicateKeys inner ('['.toNat :: s) (.array []) t
  | array {s u x y t : Bytes} {vs : List Json} {v : Json} : Ws s u → Listed inner u vs x → inner x v y →
      Ws y (']'.toNat :: t) → Shape allowDuplicateKeys inner ('['.toNat :: s) (.array (vs ++ [v])) t
  | emptyObject {s t : Bytes} : Ws s ('}'.toNat :: t) →
      Shape allowDuplicateKeys inner ('{'.toNat :: s) (.object []) t
  | object {s u x y t : Bytes} {ms : List (Text × Json)} {m : Text × Json} : Ws s u →
      Listed (Member inner) u ms x → Member inner x m y → Ws y ('}'.toNat :: t) →
      Distinct allowDuplicateKeys (ms ++ [m]) →
      Shape allowDuplicateKeys inner ('{'.toNat :: s) (.object (Members.ofList (ms ++ [m]))) t

def Value (allowDuplicateKeys : Bool) : ℕ → Reads Json
  | 0 => fun _ _ _ => False
  | levels + 1 => Shape allowDuplicateKeys (Value allowDuplicateKeys levels)

inductive WithinMember (within : Bytes → Bytes → Prop) : Bytes → Bytes → Prop
  | key {s d t : Bytes} : Body s d t → WithinMember within ('"'.toNat :: s) t
  | value {s u w x t : Bytes} {key : Text} : Quoted s key u → Ws u (':'.toNat :: w) → Ws w x →
      within x t → WithinMember within s t

/-- From the beginning of a value to a place inside one of its strings, all before it being as
it should. The key of a member is compared after its value, so there it may be one of those before. -/
inductive Within (allowDuplicateKeys : Bool) (inner : Reads Json) (within : Bytes → Bytes → Prop) :
    Bytes → Bytes → Prop
  | string {s d t : Bytes} : Body s d t → Within allowDuplicateKeys inner within ('"'.toNat :: s) t
  | element {s u x t : Bytes} {vs : List Json} : Ws s u → Listed inner u vs x → within x t →
      Within allowDuplicateKeys inner within ('['.toNat :: s) t
  | member {s u x t : Bytes} {ms : List (Text × Json)} : Ws s u → Listed (Member inner) u ms x →
      Distinct allowDuplicateKeys ms → WithinMember within x t →
      Within allowDuplicateKeys inner within ('{'.toNat :: s) t

def Inside (allowDuplicateKeys : Bool) : ℕ → Bytes → Bytes → Prop
  | 0 => fun _ _ => False
  | levels + 1 => Within allowDuplicateKeys (Value allowDuplicateKeys levels) (Inside allowDuplicateKeys levels)

/-- From the beginning of a value, a backslash inside a string that a character beyond ASCII
follows. -/
def Strays (inside : Bytes → Bytes → Prop) (s : Bytes) : Prop :=
  ∃ b t, inside s ('\\'.toNat :: b :: t) ∧ 0x80 ≤ b

def levels : ℕ := Limits.depth + 1

def afterMark : Bytes → Bytes
  | 0xEF :: 0xBB :: 0xBF :: s => s
  | s => s

/-- A text whose strings, read in order, come to a backslash that a character beyond ASCII
follows before anything else is wrong. -/
def StrayEscape (text : Text) (allowDuplicateKeys : Bool) : Prop :=
  ∃ s, Ws (afterMark text.bytes) s ∧ Strays (Inside allowDuplicateKeys levels) s

end Ens.Json

/-! ## Places in a text

A place is an offset at which a character begins, with the bytes that are left there. The reader
makes its errors at such places, where nothing it reads or cuts for a message aborts.
-/
namespace Ens.Json
open Loop

structure At (text : Text) (i : ℕ) (s : Bytes) : Prop where
  boundary : Utf8.Boundary text.bytes i
  left : text.bytes.drop i = s

variable {text : Text} {i j : ℕ} {b : ℕ} {s t : Bytes}

theorem byte_of_drop (h : text.bytes.drop i = b :: s) : text.bytes[i]? = some b := by
  have := congrArg (·[0]?) h
  simpa using this

theorem drop_succ (h : text.bytes.drop i = b :: s) : text.bytes.drop (i + 1) = s := by
  rw [← List.drop_drop,h]
  rfl

theorem at_of_ascii (h : text.bytes.drop i = b :: s) (hb : b < 0x80) : At text i (b :: s) :=
  ⟨Utf8.boundary_of_ascii (byte_of_drop h) hb,h⟩

theorem at_next (h : text.bytes.drop i = b :: s) (hb : b < 0x80) : At text (i + 1) s :=
  ⟨text.valid.boundary_succ (byte_of_drop h) hb,drop_succ h⟩

theorem atEnd_of_drop (h : text.bytes.drop i = s) : Cursor.atEnd text i = decide (s = []) := by
  subst h
  rw [Cursor.atEnd,Text.length]
  exact decide_eq_decide.mpr List.drop_eq_nil_iff.symm

theorem byteAt_of_drop (h : text.bytes.drop i = b :: s) : text.byteAt i = .ok b :=
  Text.byteAt_ok (byte_of_drop h)

theorem getElem?_of_drop (h : text.bytes.drop i = s) (k : ℕ) : text.bytes[i + k]? = s[k]? := by
  rw [← h,List.getElem?_drop]

namespace At

theorem le (h : At text i s) : i ≤ text.length := h.boundary.1

theorem eq (h : At text i s) (h' : At text i t) : s = t := h.left.symm.trans h'.left

theorem next (h : At text i (b :: s)) (hb : b < 0x80) : At text (i + 1) s := at_next h.left hb

theorem lt (h : At text i (b :: s)) : i < text.length :=
  (List.getElem?_eq_some_iff.mp (byte_of_drop h.left)).1

theorem byteAt (h : At text i (b :: s)) : text.byteAt i = .ok b := byteAt_of_drop h.left

theorem lt_of_length (h : At text i s) (h' : At text j t) (hlt : t.length < s.length) : i < j := by
  rw [← h.left,← h'.left,List.length_drop,List.length_drop] at hlt
  omega

theorem sees (h : At text i s) (c : Char) : Cursor.sees text i c = decide (s.head? = some c.toNat) := by
  rw [Cursor.sees,← Nat.add_zero i,getElem?_of_drop h.left,List.head?_eq_getElem?]

theorem meets (h : At text i s) (p : ℕ → Bool) : Cursor.meets text p i = s.head?.any p := by
  rw [Cursor.meets,← Nat.add_zero i,getElem?_of_drop h.left,List.head?_eq_getElem?]

theorem takes {w : Bytes} (h : At text i (w ++ t)) (hw : ∀ b ∈ w, b < 0x80) : At text (i + w.length) t := by
  induction w generalizing i with
  | nil => exact h
  | cons a w ih =>
    have := ih (h.next (hw a (List.mem_cons_self ..))) fun b hb => hw b (List.mem_cons_of_mem _ hb)
    rwa [List.length_cons,Nat.add_comm w.length,← Nat.add_assoc]

theorem skip (h : At text i s) {p : ℕ → Bool} (hp : ∀ b, p b = true → b < 0x80) :
    At text (Cursor.skip text p i) (s.dropWhile p) := by
  rw [Cursor.skip,h.left]
  refine At.takes (by rwa [List.takeWhile_append_dropWhile]) fun b hb => hp b ?_
  exact List.mem_takeWhile_imp hb

theorem substring (h : At text i s) (h' : At text j t) (hij : i ≤ j) :
    ∃ v, text.substring i j = .ok v ∧ s = v.bytes ++ t := by
  obtain ⟨v,hv,hb⟩ := Text.substring_ok h.boundary h'.boundary hij
  refine ⟨v,hv,?_⟩
  rw [hb,← h.left,← h'.left]
  conv_lhs => rw [← List.take_append_drop j text.bytes]
  rw [List.drop_append_of_le_length]
  rw [List.length_take]
  have := h'.boundary.1
  omega

end At

/-! ### Runs of bytes -/

variable {p : ℕ → Bool}

theorem run_dropWhile (p : ℕ → Bool) (s : Bytes) : Run p s (s.dropWhile p) :=
  ⟨s.takeWhile p,List.takeWhile_append_dropWhile.symm,fun _ hb => List.mem_takeWhile_imp hb⟩

theorem Run.length_le (h : Run p s t) : t.length ≤ s.length := by
  obtain ⟨w,rfl,-⟩ := h
  rw [List.length_append]
  exact Nat.le_add_left _ _

/-- The first of the bytes, if there is one, meets a condition. -/
def Starts (p : ℕ → Prop) (s : Bytes) : Prop := ∀ b, s.head? = some b → p b

theorem Run.dropWhile_eq (h : Run p s t) (ht : Starts (p · = false) t) : s.dropWhile p = t := by
  obtain ⟨w,rfl,hw⟩ := h
  rw [List.dropWhile_append_of_pos hw]
  cases t with
  | nil => rfl
  | cons b t => rw [List.dropWhile_cons_of_neg (by simp [ht b rfl])]

theorem isDigit_ascii (hb : isDigit b = true) : b < 0x80 := by
  simp only [isDigit,Bool.and_eq_true,decide_eq_true_eq,Char.reduceToNat] at hb
  omega

theorem isWordByte_ascii (hb : isWordByte b = true) : b < 0x80 := by
  simp only [isWordByte,isDigit,Bool.or_eq_true,Bool.and_eq_true,decide_eq_true_eq,Char.reduceToNat] at hb
  omega

theorem isWhitespace_ascii (hb : isWhitespace b = true) : b < 0x80 := by
  simp only [isWhitespace,Bool.or_eq_true,decide_eq_true_eq,Char.reduceToNat] at hb
  omega

theorem At.skipWhitespace (h : At text i s) :
    At text (Cursor.skipWhitespace text i) (s.dropWhile isWhitespace) := h.skip fun _ => isWhitespace_ascii

theorem At.skipDigits (h : At text i s) : At text (Cursor.skipDigits text i) (s.dropWhile isDigit) :=
  h.skip fun _ => isDigit_ascii

/-- The character at a place is as long as its first byte tells. -/
theorem At.character (h : At text i (b :: s)) (hb : 0x80 ≤ b) :
    ∃ t, At text (i + if 0xF0 ≤ b then 4 else if 0xE0 ≤ b then 3 else 2) t := by
  obtain ⟨c,hc,⟨r,hr⟩,hn⟩ := text.valid.next h.boundary h.lt
  rw [h.left] at hr
  cases hc' : c with
  | nil => have := hc.length_pos; simp [hc'] at this
  | cons a c' =>
    subst hc'
    obtain rfl : a = b := (List.cons.inj hr).1
    rw [hc.length_eq hb] at hn
    exact ⟨_,hn,rfl⟩

/-! ### Errors -/

namespace Cursor

theorem position_ok (hi : i ≤ text.length) : ∃ p, position text i = .ok p := by
  have hfold : ∃ r, (List.range i).foldlM (fun (x : ℕ × ℕ) i => do
      let b ← text.byteAt i
      .ok (if b = '\n'.toNat then (x.1 + 1,i + 1) else (x.1,x.2))) (1,0) = (.ok r : Except Stop (ℕ × ℕ)) := by
    refine foldlM_ok (fun a ha x => ?_) _
    obtain ⟨b,hb⟩ := Text.exists_byte (t := text) (i := a) (by have := List.mem_range.mp ha; omega)
    exact ⟨_,by rw [Text.byteAt_ok hb]; rfl⟩
  obtain ⟨r,hr⟩ := hfold
  exact ⟨_,by unfold position; erw [hr]; rfl⟩

theorem where_ok (hi : i ≤ text.length) : ∃ w, «where» text i = .ok w := by
  obtain ⟨p,hp⟩ := position_ok hi
  exact ⟨_,by rw [«where»,hp]; rfl⟩

theorem failure_ok (m : Bytes) (hi : i ≤ text.length) : ∃ e, failure text m i = .ok e := by
  obtain ⟨p,hp⟩ := position_ok hi
  exact ⟨_,by rw [failure,hp]; rfl⟩

theorem failureAt_ok (m m' : Bytes) (hi : i ≤ text.length) : ∃ e, failureAt text m m' i = .ok e := by
  obtain ⟨w,hw⟩ := where_ok hi
  rw [failureAt,hw,ok_bind]
  exact failure_ok _ hi

theorem endsInside_ok (kind closer : Bytes) (hi : i ≤ text.length) (hj : j ≤ text.length) :
    ∃ e, endsInside text kind i closer j = .ok e := by
  obtain ⟨w,hw⟩ := where_ok hi
  rw [endsInside,hw,ok_bind]
  exact failure_ok _ hj

theorem word_ok (h : At text i s) :
    ∃ v, word text i = .ok v ∧ v.bytes = s.takeWhile isWordByte := by
  obtain ⟨v,hv,hs⟩ := h.substring (h.skip fun _ => isWordByte_ascii) (Nat.le_add_right _ _)
  refine ⟨v,hv,?_⟩
  exact List.append_cancel_right (hs.symm.trans List.takeWhile_append_dropWhile.symm)

theorem describe_ok (h : At text i (b :: s)) : ∃ d, describe text i = .ok d := by
  have hcut {j : ℕ} (hj : ∃ t, At text (i + j) t) : ∃ v, text.substring i (i + j) = .ok v := by
    obtain ⟨t,ht⟩ := hj
    obtain ⟨v,hv,-⟩ := h.substring ht (Nat.le_add_right _ _)
    exact ⟨v,hv⟩
  rw [describe,h.byteAt,ok_bind]
  split
  · exact ⟨_,rfl⟩
  split
  · obtain ⟨v,hv,-⟩ := word_ok h
    exact ⟨_,by rw [hv]; rfl⟩
  split
  · exact ⟨_,rfl⟩
  split
  · rename_i hb
    obtain ⟨v,hv⟩ := hcut ⟨s,h.next hb⟩
    exact ⟨_,by rw [hv]; rfl⟩
  · rename_i hb
    obtain ⟨v,hv⟩ := hcut (h.character (by omega))
    dsimp only
    rw [hv]
    exact ⟨_,rfl⟩

theorem found_ok (m : Bytes) (h : At text i (b :: s)) : ∃ e, found text m i = .ok e := by
  obtain ⟨d,hd⟩ := describe_ok h
  obtain ⟨w,hw⟩ := where_ok h.le
  rw [found,hd,ok_bind,hw,ok_bind]
  exact failure_ok _ h.le

theorem unexpectedValue_ok (h : At text i (b :: s)) : ∃ e, unexpectedValue text i = .ok e := by
  obtain ⟨d,hd⟩ := describe_ok h
  obtain ⟨w,hw⟩ := where_ok h.le
  obtain ⟨v,hv,-⟩ := word_ok h
  rw [unexpectedValue,h.byteAt,ok_bind,hd,ok_bind,hw,ok_bind]
  simp only [hv,ok_bind]
  repeat' split
  all_goals exact failure_ok _ h.le

theorem loneSurrogate_ok (h : At text i s) (h' : At text (i + 6) t) : ∃ e, loneSurrogate text i = .ok e := by
  obtain ⟨v,hv,-⟩ := h.substring h' (Nat.le_add_right _ _)
  rw [loneSurrogate,hv,ok_bind]
  exact failureAt_ok _ _ h.le

end Cursor

/-- A halt that is an error thrown, or an abort where that is allowed. -/
def Aborts (bad : Prop) : Halt → Prop
  | .throws _ => True
  | .stop .abort => bad
  | .stop .endless => False

theorem Aborts.mono {bad bad' : Prop} (h : bad → bad') {e : Halt} (he : Aborts bad e) : Aborts bad' e := by
  cases e with
  | throws e => trivial
  | stop e =>
    cases e with
    | abort => exact h he
    | endless => exact he

theorem yields_refuse {A : Type} {m : Except Stop JsonError} {Q : A → Prop} {bad : Prop}
    (h : ∃ e, m = .ok e) : Yields (refuse m) Q (Aborts bad) := by
  obtain ⟨e,rfl⟩ := h
  trivial

end Ens.Json
