import Ens.Constants.IntegerLiteral
import Ens.Lex.StringSpec
import Ens.Text.DecodeRun

/-! # The text of string and character literals

A literal the lexer accepts is read again by the compiler, its escapes decoded: to bytes, to a string, or to the one character it holds.
The lexer asks four hexadecimal digits of an escape of the `u` form and does not look at the code they spell, so that the readers give
text exactly when none of these codes is half of a surrogate pair.
-/
set_option linter.all false
namespace Ens.Literals
open Loop Utf8 Ens.Lex Decode Constants

/-! ### The readers -/

def hexFrom (raw : List ℕ) : ℕ → ℕ → ℕ → Except Stop (Option ℕ)
  | _, value, 0 => .ok (some value)
  | i, value, count + 1 => do
    let digit := digitValue (← entry raw i)
    if digit < 0 ∨ 16 ≤ digit then .ok none else hexFrom raw (i + 1) (value * 16 + digit.toNat) count

def escapeCodepoint (raw : List ℕ) (backslash stop : ℕ) : Except Stop ℕ := do
  let next ← entry raw (backslash + 1)
  if next = 'n'.toNat then .ok 10
  else if next = 't'.toNat then .ok 9
  else if next = 'r'.toNat then .ok 13
  else if next = 'b'.toNat then .ok 8
  else if next = 'f'.toNat then .ok 12
  else if next = '0'.toNat then .ok 0
  else if next = 'u'.toNat then
    if backslash + 6 ≤ stop then do
      let value ← hexFrom raw (backslash + 2) 0 4
      .ok (value.getD next)
    else .ok next
  else .ok next

def escapeLength (raw : List ℕ) (backslash stop : ℕ) : Except Stop ℕ := do
  let next ← entry raw (backslash + 1)
  if next = 'u'.toNat ∧ backslash + 6 ≤ stop then do
    let value ← hexFrom raw (backslash + 2) 0 4
    .ok (if value = none then 2 else 6)
  else .ok 2

def appendUtf8 (scalar : ℕ) : List ℕ :=
  if scalar < 0x80 then [scalar % 256]
  else if scalar < 0x800 then [(0xC0 + scalar / 64) % 256,(0x80 + scalar % 64) % 256]
  else if scalar < 0x10000 then
    [(0xE0 + scalar / 4096) % 256,(0x80 + scalar / 64 % 64) % 256,(0x80 + scalar % 64) % 256]
  else [(0xF0 + scalar / 262144) % 256,(0x80 + scalar / 4096 % 64) % 256,(0x80 + scalar / 64 % 64) % 256,(0x80 + scalar % 64) % 256]

def bytesRound (raw : List ℕ) (stop : ℕ) : List ℕ × ℕ → Except Stop (Loop.Flow (List ℕ × ℕ) (List ℕ))
  | (out,i) =>
    if i < stop then do
      let c ← entry raw i
      if c ≠ '\\'.toNat ∨ stop ≤ i + 1 then .ok (.next (out ++ [c],i + 1))
      else do
        let next ← entry raw (i + 1)
        let code ← escapeCodepoint raw i stop
        if next = 'u'.toNat then .ok (.next (out ++ appendUtf8 code,min (i + 6) stop))
        else .ok (.next (out ++ [code % 256],i + 2))
    else .ok (.done out)

def decodeStringBytes (text : Text) : Except Stop (List ℕ) :=
  let raw := text.bytes
  let start := if 0 < raw.length then 1 else 0
  let stop := if 1 < raw.length then raw.length - 1 else raw.length
  loop .endless (bytesRound raw stop) (raw.length + 1) ([],start)

def charToString (code : ℕ) : List ℕ := encode code

def stringRound (raw : List ℕ) (stop : ℕ) : List ℕ × ℕ × ℕ → Except Stop (Loop.Flow (List ℕ × ℕ × ℕ) (List ℕ))
  | (built,i,plainFrom) =>
    if i < stop then do
      let c ← entry raw i
      if c = '\\'.toNat ∧ i + 1 < stop then do
        let run ← fromBytesLossy ((raw.take i).drop plainFrom)
        let code ← escapeCodepoint raw i stop
        let length ← escapeLength raw i stop
        .ok (.next (built ++ run ++ charToString code,i + length,i + length))
      else .ok (.next (built,i + 1,plainFrom))
    else do
      let run ← fromBytesLossy ((raw.take stop).drop plainFrom)
      .ok (.done (built ++ run))

def quotedBy (quote : ℕ) (raw : List ℕ) : Bool :=
  decide (2 ≤ raw.length) && decide (raw[0]? = some quote) && decide (raw[raw.length - 1]? = some quote)

def decodeString (text : Text) : Except Stop (List ℕ) :=
  let raw := text.bytes
  let start := if quotedBy '"'.toNat raw then 1 else 0
  let stop := if quotedBy '"'.toNat raw then raw.length - 1 else raw.length
  loop .endless (stringRound raw stop) (raw.length + 1) ([],start,start)

-- The bytes after a lead continue its character in every text, so that nothing is taken from less than it.
def decodeUtf8 (raw : List ℕ) (start stop : ℕ) : Except Stop ℕ := do
  let first ← entry raw start
  if first < 0x80 then .ok first
  else if 0xC0 ≤ first ∧ first < 0xE0 ∧ start + 1 < stop then do
    let second ← entry raw (start + 1)
    .ok ((first - 0xC0) * 64 + (second - 0x80))
  else if 0xE0 ≤ first ∧ first < 0xF0 ∧ start + 2 < stop then do
    let second ← entry raw (start + 1)
    let third ← entry raw (start + 2)
    .ok ((first - 0xE0) * 4096 + (second - 0x80) * 64 + (third - 0x80))
  else if 0xF0 ≤ first ∧ start + 3 < stop then do
    let second ← entry raw (start + 1)
    let third ← entry raw (start + 2)
    let fourth ← entry raw (start + 3)
    .ok ((first - 0xF0) * 262144 + (second - 0x80) * 4096 + (third - 0x80) * 64 + (fourth - 0x80))
  else .ok first

def charCodepoint (text : Text) : Except Stop ℕ :=
  let raw := text.bytes
  let start := if quotedBy '\''.toNat raw then 1 else 0
  let stop := if quotedBy '\''.toNat raw then raw.length - 1 else raw.length
  if stop ≤ start then .ok 0
  else do
    let c ← entry raw start
    if c = '\\'.toNat ∧ start + 1 < stop then escapeCodepoint raw start stop else decodeUtf8 raw start stop

/-! ### What escapes spell -/

def namedCode (e : ℕ) : ℕ :=
  if e = 'n'.toNat then 10 else if e = 't'.toNat then 9 else if e = 'r'.toNat then 13 else if e = 'b'.toNat then 8
  else if e = 'f'.toNat then 12 else if e = '0'.toNat then 0 else e

def hexCode (p q r s : ℕ) : ℕ := ((hexValue p * 16 + hexValue q) * 16 + hexValue r) * 16 + hexValue s

def Surrogate (code : ℕ) : Prop := 0xD800 ≤ code ∧ code ≤ 0xDFFF

instance (code : ℕ) : Decidable (Surrogate code) := inferInstanceAs (Decidable (_ ∧ _))

inductive NamesSurrogate : List ℕ → Prop
  | here {p q r s : ℕ} {bs : List ℕ} : Surrogate (hexCode p q r s) → NamesSurrogate ('\\'.toNat :: 'u'.toNat :: p :: q :: r :: s :: bs)
  | escape {e : ℕ} {bs : List ℕ} : NamesSurrogate bs → NamesSurrogate ('\\'.toNat :: e :: bs)
  | plain {b : ℕ} {bs : List ℕ} : b ≠ '\\'.toNat → NamesSurrogate bs → NamesSurrogate (b :: bs)

/-- What the text of a literal denotes: bytes outside its escapes for themselves, an escape for the character it names. -/
inductive Denotes : List ℕ → List ℕ → Prop
  | nil : Denotes [] []
  | plain {b : ℕ} {bs out : List ℕ} : b ≠ '\\'.toNat → Denotes bs out → Denotes (b :: bs) (b :: out)
  | simple {e : ℕ} {bs out : List ℕ} : isSimpleEscape e = true → Denotes bs out → Denotes ('\\'.toNat :: e :: bs) (namedCode e :: out)
  | unicode {p q r s : ℕ} {bs out : List ℕ} : isHexDigit p = true → isHexDigit q = true → isHexDigit r = true → isHexDigit s = true →
      Denotes bs out → Denotes ('\\'.toNat :: 'u'.toNat :: p :: q :: r :: s :: bs) (encode (hexCode p q r s) ++ out)

variable {raw bs body c rest out tail : List ℕ} {text input : Text} {a b e i n p q r s z stop fuel : ℕ}

theorem denotes_of_content (h : Content bs) : ∃ out, Denotes bs out := by
  induction h with
  | nil => exact ⟨[],.nil⟩
  | plain hb _ ih =>
    obtain ⟨out,ho⟩ := ih
    exact ⟨_,.plain hb ho⟩
  | simple he _ ih =>
    obtain ⟨out,ho⟩ := ih
    exact ⟨_,.simple he ho⟩
  | unicode hp hq hr hs _ ih =>
    obtain ⟨out,ho⟩ := ih
    exact ⟨_,.unicode hp hq hr hs ho⟩

/-! ### One escape -/

theorem digitValue_hex (h : isHexDigit b = true) : digitValue b = hexValue b ∧ hexValue b < 16 := by
  have h0 : '0'.toNat = 48 := rfl
  have h9 : '9'.toNat = 57 := rfl
  have ha : 'a'.toNat = 97 := rfl
  have hf : 'f'.toNat = 102 := rfl
  have hA : 'A'.toNat = 65 := rfl
  have hF : 'F'.toNat = 70 := rfl
  simp only [isHexDigit,isDigit,Bool.or_eq_true,Bool.and_eq_true,decide_eq_true_eq,h0,h9,ha,hf,hA,hF] at h
  simp only [digitValue,hexValue,isDigit,Bool.and_eq_true,decide_eq_true_eq,h0,h9,ha,hf,hA,hF]
  split_ifs <;> omega

theorem hexCode_lt (hp : isHexDigit p = true) (hq : isHexDigit q = true) (hr : isHexDigit r = true) (hs : isHexDigit s = true) :
    hexCode p q r s < 0x10000 := by
  have h1 := (digitValue_hex hp).2
  have h2 := (digitValue_hex hq).2
  have h3 := (digitValue_hex hr).2
  have h4 := (digitValue_hex hs).2
  rw [hexCode]
  omega

theorem entry_drop {l : List ℕ} {k : ℕ} (hd : raw.drop i = l) (hk : l[k]? = some b) : entry raw (i + k) = .ok b :=
  entry_ok (by rw [← List.getElem?_drop,hd,hk])

theorem hexFrom_cons {value count : ℕ} (hb : isHexDigit b = true) (he : entry raw i = .ok b) :
    hexFrom raw i value (count + 1) = hexFrom raw (i + 1) (value * 16 + hexValue b) count := by
  obtain ⟨hv,hlt⟩ := digitValue_hex hb
  rw [hexFrom,he,ok_bind,hv,if_neg (by omega),Int.toNat_natCast]

theorem hexFrom_four (hp : isHexDigit p = true) (hq : isHexDigit q = true) (hr : isHexDigit r = true) (hs : isHexDigit s = true)
    (hd : raw.drop i = '\\'.toNat :: 'u'.toNat :: p :: q :: r :: s :: rest) : hexFrom raw (i + 2) 0 4 = .ok (some (hexCode p q r s)) := by
  have h2 : entry raw (i + 2) = .ok p := entry_drop hd rfl
  have h3 : entry raw (i + 2 + 1) = .ok q := entry_drop (k := 3) hd rfl
  have h4 : entry raw (i + 2 + 1 + 1) = .ok r := entry_drop (k := 4) hd rfl
  have h5 : entry raw (i + 2 + 1 + 1 + 1) = .ok s := entry_drop (k := 5) hd rfl
  rw [hexFrom_cons hp h2,hexFrom_cons hq h3,hexFrom_cons hr h4,hexFrom_cons hs h5,hexFrom,hexCode,Nat.zero_mul,Nat.zero_add]

theorem escapeCodepoint_simple (he : isSimpleEscape e = true) (hd : raw.drop i = '\\'.toNat :: e :: rest) :
    escapeCodepoint raw i stop = .ok (namedCode e) ∧ escapeLength raw i stop = .ok 2 := by
  have hu : e ≠ 'u'.toNat := (isSimpleEscape_ascii he).2
  have hentry : entry raw (i + 1) = .ok e := entry_drop hd rfl
  constructor
  · rw [escapeCodepoint,hentry,ok_bind,namedCode,if_neg hu]
    split_ifs <;> rfl
  · rw [escapeLength,hentry,ok_bind,if_neg (fun h => hu h.1)]

theorem escapeCodepoint_unicode (hp : isHexDigit p = true) (hq : isHexDigit q = true) (hr : isHexDigit r = true)
    (hs : isHexDigit s = true) (hd : raw.drop i = '\\'.toNat :: 'u'.toNat :: p :: q :: r :: s :: rest) (hstop : i + 6 ≤ stop) :
    escapeCodepoint raw i stop = .ok (hexCode p q r s) ∧ escapeLength raw i stop = .ok 6 := by
  have hentry : entry raw (i + 1) = .ok 'u'.toNat := entry_drop hd rfl
  have hfour := hexFrom_four hp hq hr hs hd
  constructor
  · rw [escapeCodepoint,hentry,ok_bind,if_neg (by decide),if_neg (by decide),if_neg (by decide),if_neg (by decide),
      if_neg (by decide),if_neg (by decide),if_pos rfl,if_pos hstop,hfour]
    rfl
  · rw [escapeLength,hentry,ok_bind,if_pos ⟨rfl,hstop⟩,hfour]
    rfl

theorem appendUtf8_eq (h : n < 0x10000) : appendUtf8 n = encode n := by
  unfold appendUtf8 encode
  split_ifs
  · rw [Nat.mod_eq_of_lt (by omega)]
  · simp only [List.cons.injEq,and_true]
    omega
  · simp only [List.cons.injEq,and_true]
    omega

theorem namedCode_ascii (h : isSimpleEscape e = true) : namedCode e < 0x80 := by
  have he := (isSimpleEscape_ascii h).1
  unfold namedCode
  split_ifs <;> omega

/-! ### Both readers of a string -/

theorem drop_step {l : List ℕ} {k : ℕ} (hd : raw.drop i = l) : raw.drop (i + k) = l.drop k := by
  rw [← List.drop_drop,hd]

theorem bytes_loop (ho : Denotes rest tail) (hd : raw.drop i = rest ++ [z]) (hstop : i + rest.length = stop) (hfuel : rest.length < fuel) :
    loop .endless (bytesRound raw stop) fuel (out,i) = .ok (out ++ tail) := by
  induction ho generalizing fuel i out with
  | nil =>
    obtain ⟨fuel,rfl⟩ := Nat.exists_eq_succ_of_ne_zero (Nat.ne_zero_of_lt hfuel)
    rw [List.append_nil]
    exact loop_done (by rw [bytesRound,if_neg (by rw [← hstop]; exact Nat.lt_irrefl i)])
  | @plain b bs tail hb _ ih =>
    obtain ⟨fuel,rfl⟩ := Nat.exists_eq_succ_of_ne_zero (Nat.ne_zero_of_lt hfuel)
    rw [List.length_cons] at hstop hfuel
    have hentry : entry raw i = .ok b := entry_drop (k := 0) hd rfl
    have hround : bytesRound raw stop (out,i) = .ok (.next (out ++ [b],i + 1)) := by
      rw [bytesRound,if_pos (by omega),hentry,ok_bind,if_pos (.inl hb)]
    rw [loop_next hround,ih (drop_step hd) (by omega) (by omega),List.append_assoc]
    rfl
  | @simple e bs tail he _ ih =>
    obtain ⟨fuel,rfl⟩ := Nat.exists_eq_succ_of_ne_zero (Nat.ne_zero_of_lt hfuel)
    simp only [List.length_cons] at hstop hfuel
    have hentry : entry raw i = .ok '\\'.toNat := entry_drop (k := 0) hd rfl
    have hnext : entry raw (i + 1) = .ok e := entry_drop hd rfl
    have hcode : escapeCodepoint raw i stop = .ok (namedCode e) := (escapeCodepoint_simple he hd).1
    have hlt := namedCode_ascii he
    have hround : bytesRound raw stop (out,i) = .ok (.next (out ++ [namedCode e],i + 2)) := by
      rw [bytesRound,if_pos (by omega),hentry,ok_bind,if_neg (by rintro (h | h); exacts [h rfl,by omega]),hnext,ok_bind,hcode,ok_bind,
        if_neg (isSimpleEscape_ascii he).2,Nat.mod_eq_of_lt (by omega)]
    rw [loop_next hround,ih (drop_step hd) (by omega) (by omega),List.append_assoc]
    rfl
  | @unicode p q r s bs tail hp hq hr hs _ ih =>
    obtain ⟨fuel,rfl⟩ := Nat.exists_eq_succ_of_ne_zero (Nat.ne_zero_of_lt hfuel)
    simp only [List.length_cons] at hstop hfuel
    have hentry : entry raw i = .ok '\\'.toNat := entry_drop (k := 0) hd rfl
    have hnext : entry raw (i + 1) = .ok 'u'.toNat := entry_drop hd rfl
    have hcode : escapeCodepoint raw i stop = .ok (hexCode p q r s) := (escapeCodepoint_unicode hp hq hr hs hd (by omega)).1
    have hround : bytesRound raw stop (out,i) = .ok (.next (out ++ encode (hexCode p q r s),i + 6)) := by
      rw [bytesRound,if_pos (by omega),hentry,ok_bind,if_neg (by rintro (h | h); exacts [h rfl,by omega]),hnext,ok_bind,hcode,ok_bind,
        if_pos rfl,appendUtf8_eq (hexCode_lt hp hq hr hs),Nat.min_eq_left (by omega)]
    rw [loop_next hround,ih (drop_step hd) (by omega) (by omega),List.append_assoc]

/-- A run of whole characters is read as it stands. -/
theorem run_ok {j : ℕ} (hi : Boundary text.bytes i) (hj : Boundary text.bytes j) (hij : i ≤ j) :
    fromBytesLossy ((text.bytes.take j).drop i) = .ok ((text.bytes.take j).drop i) := by
  obtain ⟨run,hrun,-,hsame⟩ := fromBytesLossy_exact ((text.bytes.take j).drop i)
  rw [hrun,hsame (text.valid.slice hi hj hij)]

theorem slice_none (l : List ℕ) (i : ℕ) : (l.take i).drop i = [] :=
  List.drop_eq_nil_of_le (by rw [List.length_take]; exact Nat.min_le_left _ _)

theorem string_loop {plainFrom : ℕ} {built : List ℕ} (ho : Denotes rest tail) (hd : text.bytes.drop i = rest ++ [z]) (hz : z < 0x80)
    (hstop : i + rest.length = stop) (hle : plainFrom ≤ i) (hb : Boundary text.bytes plainFrom) (hfuel : rest.length < fuel) :
    loop .endless (stringRound text.bytes stop) fuel (built,i,plainFrom) = .ok (built ++ (text.bytes.take i).drop plainFrom ++ tail) := by
  induction ho generalizing fuel i built plainFrom with
  | nil =>
    obtain ⟨fuel,rfl⟩ := Nat.exists_eq_succ_of_ne_zero (Nat.ne_zero_of_lt hfuel)
    obtain rfl : i = stop := hstop
    have hbyte : text.bytes[i]? = some z := byte_of_drop (k := 0) hd
    rw [List.append_nil]
    refine loop_done ?_
    rw [stringRound,if_neg (Nat.lt_irrefl i),run_ok hb (boundary_of_ascii hbyte hz) hle,ok_bind]
  | @plain b bs tail hne _ ih =>
    obtain ⟨fuel,rfl⟩ := Nat.exists_eq_succ_of_ne_zero (Nat.ne_zero_of_lt hfuel)
    rw [List.length_cons] at hstop hfuel
    have hbyte : text.bytes[i]? = some b := byte_of_drop (k := 0) hd
    have hround : stringRound text.bytes stop (built,i,plainFrom) = .ok (.next (built,i + 1,plainFrom)) := by
      rw [stringRound,if_pos (by omega),entry_ok hbyte,ok_bind,if_neg (fun h => hne h.1)]
    rw [loop_next hround,ih (drop_step hd) (by omega) (by omega) hb (by omega),Lexer.slice_append hle (Nat.le_succ i),
      Lexer.slice_one hbyte]
    simp only [List.append_assoc,List.singleton_append]
  | @simple e bs tail he _ ih =>
    obtain ⟨fuel,rfl⟩ := Nat.exists_eq_succ_of_ne_zero (Nat.ne_zero_of_lt hfuel)
    simp only [List.length_cons] at hstop hfuel
    have hbyte : text.bytes[i]? = some '\\'.toNat := byte_of_drop (k := 0) hd
    have hnext : text.bytes[i + 1]? = some e := byte_of_drop hd
    obtain ⟨hcode,hlen⟩ : escapeCodepoint text.bytes i stop = .ok (namedCode e) ∧ _ := escapeCodepoint_simple he hd
    have hafter : Boundary text.bytes (i + 2) := text.valid.boundary_succ hnext (isSimpleEscape_ascii he).1
    have hround : stringRound text.bytes stop (built,i,plainFrom) =
        .ok (.next (built ++ (text.bytes.take i).drop plainFrom ++ [namedCode e],i + 2,i + 2)) := by
      rw [stringRound,if_pos (by omega),entry_ok hbyte,ok_bind,if_pos ⟨rfl,by omega⟩,run_ok hb (boundary_of_ascii hbyte (by decide)) hle,
        ok_bind,hcode,ok_bind,hlen,ok_bind,charToString,encode,if_pos (namedCode_ascii he)]
    rw [loop_next hround,ih (drop_step hd) (by omega) (Nat.le_refl _) hafter (by omega),
      slice_none,List.append_nil,List.append_assoc _ _ tail]
    rfl
  | @unicode p q r s bs tail hp hq hr hs _ ih =>
    obtain ⟨fuel,rfl⟩ := Nat.exists_eq_succ_of_ne_zero (Nat.ne_zero_of_lt hfuel)
    simp only [List.length_cons] at hstop hfuel
    have hbyte : text.bytes[i]? = some '\\'.toNat := byte_of_drop (k := 0) hd
    have hlast : text.bytes[i + 5]? = some s := byte_of_drop hd
    obtain ⟨hcode,hlen⟩ : escapeCodepoint text.bytes i stop = .ok (hexCode p q r s) ∧ _ :=
      escapeCodepoint_unicode hp hq hr hs hd (by omega)
    have hafter : Boundary text.bytes (i + 6) := text.valid.boundary_succ hlast (isHexDigit_ascii hs)
    have hround : stringRound text.bytes stop (built,i,plainFrom) =
        .ok (.next (built ++ (text.bytes.take i).drop plainFrom ++ encode (hexCode p q r s),i + 6,i + 6)) := by
      rw [stringRound,if_pos (by omega),entry_ok hbyte,ok_bind,if_pos ⟨rfl,by omega⟩,run_ok hb (boundary_of_ascii hbyte (by decide)) hle,
        ok_bind,hcode,ok_bind,hlen,ok_bind,charToString]
    rw [loop_next hround,ih (drop_step hd) (by omega) (Nat.le_refl _) hafter (by omega),
      slice_none,List.append_nil,List.append_assoc _ _ tail]

theorem decodeStringBytes_ok (htext : text.bytes = a :: (body ++ [z])) (ho : Denotes body out) : decodeStringBytes text = .ok out := by
  have hlen : text.bytes.length = body.length + 2 := by rw [htext,List.length_cons,List.length_append,List.length_singleton]
  have hd : text.bytes.drop 1 = body ++ [z] := by rw [htext]; rfl
  rw [decodeStringBytes,if_pos (by omega),if_pos (by omega)]
  exact bytes_loop ho hd (by omega) (by omega)

theorem quotedBy_text {quote : ℕ} (htext : raw = quote :: (body ++ [quote])) : quotedBy quote raw = true ∧ raw.length = body.length + 2 := by
  have hlen : raw.length = body.length + 2 := by rw [htext,List.length_cons,List.length_append,List.length_singleton]
  have hlast : raw[raw.length - 1]? = some quote := by
    rw [hlen,htext,show body.length + 2 - 1 = body.length + 1 from rfl,List.getElem?_cons_succ,List.getElem?_concat_length]
  refine ⟨?_,hlen⟩
  rw [quotedBy,decide_eq_true (by omega : 2 ≤ raw.length),decide_eq_true (by rw [htext]; rfl : raw[0]? = some quote),
    decide_eq_true hlast]
  rfl

theorem decodeString_ok (htext : text.bytes = '"'.toNat :: (body ++ ['"'.toNat])) (ho : Denotes body out) :
    decodeString text = .ok out := by
  obtain ⟨hquoted,hlen⟩ := quotedBy_text htext
  have hd : text.bytes.drop 1 = body ++ ['"'.toNat] := by rw [htext]; rfl
  have hfirst : text.bytes[0]? = some '"'.toNat := by rw [htext]; rfl
  rw [decodeString,if_pos hquoted,if_pos hquoted]
  have h : loop .endless (stringRound text.bytes (text.bytes.length - 1)) (text.bytes.length + 1) ([],1,1) = _ :=
    string_loop ho hd (by decide) (by omega) (Nat.le_refl 1) (text.valid.boundary_succ hfirst (by decide)) (by omega)
  rwa [slice_none,List.append_nil,List.nil_append] at h

/-! ### When the bytes are text -/

theorem char_plain (hc : Utf8.Char c) : c = ['\\'.toNat] ∨ ∀ b ∈ c, b ≠ '\\'.toNat := by
  have h92 : '\\'.toNat = 92 := rfl
  rw [h92]
  cases hc with
  | @one a _ =>
    by_cases ha : a = 92
    · exact .inl (by rw [ha])
    · exact .inr fun b hb => by rwa [List.mem_singleton.mp hb]
  | two h1 h2 hb =>
    unfold Tail at hb
    exact .inr fun b hb => by simp only [List.mem_cons,List.not_mem_nil,or_false] at hb; omega
  | three h1 hc =>
    have h2 := h1.second
    unfold Tail at hc h2
    unfold Three at h1
    exact .inr fun b hb => by simp only [List.mem_cons,List.not_mem_nil,or_false] at hb; omega
  | four h1 hc hd =>
    have h2 := h1.second
    unfold Tail at hc hd h2
    unfold Four at h1
    exact .inr fun b hb => by simp only [List.mem_cons,List.not_mem_nil,or_false] at hb; omega

theorem namesSurrogate_plain (hb : b ≠ '\\'.toNat) : NamesSurrogate (b :: bs) ↔ NamesSurrogate bs := by
  refine ⟨fun h => ?_,.plain hb⟩
  cases h with
  | here _ => exact absurd rfl hb
  | escape _ => exact absurd rfl hb
  | plain _ h => exact h

theorem namesSurrogate_append (hc : ∀ b ∈ c, b ≠ '\\'.toNat) : NamesSurrogate (c ++ bs) ↔ NamesSurrogate bs := by
  induction c with
  | nil => exact Iff.rfl
  | cons b c ih =>
    rw [List.cons_append,namesSurrogate_plain (hc b (List.mem_cons_self ..))]
    exact ih fun b hb => hc b (List.mem_cons_of_mem _ hb)

theorem namesSurrogate_simple (he : e ≠ 'u'.toNat) : NamesSurrogate ('\\'.toNat :: e :: bs) ↔ NamesSurrogate bs := by
  refine ⟨fun h => ?_,.escape⟩
  cases h with
  | here _ => exact absurd rfl he
  | escape h => exact h
  | plain h _ => exact absurd rfl h

theorem hexDigit_plain (h : isHexDigit b = true) : b ≠ '\\'.toNat := by
  rintro rfl
  exact absurd h (by decide)

theorem namesSurrogate_unicode (hp : isHexDigit p = true) (hq : isHexDigit q = true) (hr : isHexDigit r = true) (hs : isHexDigit s = true) :
    NamesSurrogate ('\\'.toNat :: 'u'.toNat :: p :: q :: r :: s :: bs) ↔ Surrogate (hexCode p q r s) ∨ NamesSurrogate bs := by
  have hdigits : NamesSurrogate (p :: q :: r :: s :: bs) ↔ NamesSurrogate bs := by
    rw [namesSurrogate_plain (hexDigit_plain hp),namesSurrogate_plain (hexDigit_plain hq),namesSurrogate_plain (hexDigit_plain hr),
      namesSurrogate_plain (hexDigit_plain hs)]
  constructor
  · intro h
    cases h with
    | here h => exact .inl h
    | escape h => exact .inr (hdigits.mp h)
    | plain h _ => exact absurd rfl h
  · rintro (h | h)
    · exact .here h
    · exact .escape (hdigits.mpr h)

theorem denotes_append (hc : ∀ b ∈ c, b ≠ '\\'.toNat) (ho : Denotes (c ++ bs) out) : ∃ tail, out = c ++ tail ∧ Denotes bs tail := by
  induction c generalizing out with
  | nil => exact ⟨out,rfl,ho⟩
  | cons b c ih =>
    rw [List.cons_append] at ho
    have hb := hc b (List.mem_cons_self ..)
    generalize hl : c ++ bs = l at ho
    cases ho with
    | plain _ ho =>
      obtain ⟨tail,rfl,ht⟩ := ih (fun b hb => hc b (List.mem_cons_of_mem _ hb)) (hl ▸ ho)
      exact ⟨tail,rfl,ht⟩
    | simple _ _ => exact absurd rfl hb
    | unicode _ _ _ _ _ => exact absurd rfl hb

/-- A code of four digits is that of a character unless it is half of a surrogate pair. -/
theorem scalar_iff (hn : n < 0x10000) : Scalar n ↔ ¬Surrogate n := by
  unfold Scalar Surrogate
  omega

theorem surrogate_not_valid (h : Surrogate n) : ¬Valid (encode n ++ out) := by
  unfold Surrogate at h
  rw [encode,if_neg (by omega),if_neg (by omega),if_pos (by omega),show 0xE0 + n / 4096 = 0xED by omega]
  refine not_valid ?_ (List.cons_ne_nil _ _)
  have hwidth : leadWidth 0xED = 3 := by decide
  have hfollows : followsLead 0xED (0x80 + n / 64 % 64) = false := by
    refine Bool.eq_false_iff.mpr fun hf => ?_
    simp only [followsLead,Bool.and_eq_true,decide_eq_true_eq] at hf
    norm_num at hf
    omega
  rw [List.cons_append,widthOf_cons,hwidth,if_neg (by simp),if_neg (by decide)]
  dsimp only [List.cons_append]
  rw [hfollows,Bool.false_and]
  rfl

theorem one_valid (ha : a < 0x80) : Valid (a :: rest) ↔ Valid rest := valid_cons_iff (.one ha)

/-- What a literal denotes is text exactly when it names no half of a surrogate pair. -/
theorem valid_iff (hv : Valid bs) (ho : Denotes bs out) : Valid out ↔ ¬NamesSurrogate bs := by
  induction hn : bs.length using Nat.strong_induction_on generalizing bs out with
  | _ n ih =>
    cases hv with
    | nil =>
      cases ho
      exact iff_of_true .nil fun h => by cases h
    | @cons c bs hc hv =>
      rw [List.length_append] at hn
      have hpos := hc.length_pos
      rcases char_plain hc with rfl | hplain
      · -- an escape: its bytes are all below 0x80
        cases ho with
        | plain hb _ => exact absurd rfl hb
        | @simple e bs out he ho =>
          simp only [List.length_cons,List.length_nil] at hn
          have hrest := (one_valid (isSimpleEscape_ascii he).1).mp hv
          rw [one_valid (namedCode_ascii he),List.cons_append,List.nil_append,namesSurrogate_simple (isSimpleEscape_ascii he).2]
          exact ih bs.length (by omega) hrest ho rfl
        | @unicode p q r s bs out hp hq hr hs ho =>
          simp only [List.length_cons,List.length_nil] at hn
          rw [one_valid (by decide),one_valid (isHexDigit_ascii hp),one_valid (isHexDigit_ascii hq),one_valid (isHexDigit_ascii hr),
            one_valid (isHexDigit_ascii hs)] at hv
          rw [List.cons_append,List.nil_append,namesSurrogate_unicode hp hq hr hs,not_or]
          by_cases hsur : Surrogate (hexCode p q r s)
          · exact iff_of_false (surrogate_not_valid hsur) fun h => h.1 hsur
          · have hchar := encode_char ((scalar_iff (hexCode_lt hp hq hr hs)).mpr hsur)
            rw [valid_cons_iff hchar,and_iff_right hsur]
            exact ih bs.length (by omega) hv ho rfl
      · obtain ⟨tail,rfl,ht⟩ := denotes_append hplain ho
        rw [valid_cons_iff hc,namesSurrogate_append hplain]
        exact ih bs.length (by omega) hv ht rfl

/-! ### One character -/

inductive Counts : List ℕ → ℕ → Prop
  | nil : Counts [] 0
  | inside {b n : ℕ} {bs : List ℕ} : b ≠ '\\'.toNat → isContinuationByte b = true → Counts bs n → Counts (b :: bs) n
  | first {b n : ℕ} {bs : List ℕ} : b ≠ '\\'.toNat → isContinuationByte b = false → Counts bs n → Counts (b :: bs) (n + 1)
  | simple {e n : ℕ} {bs : List ℕ} : isSimpleEscape e = true → Counts bs n → Counts ('\\'.toNat :: e :: bs) (n + 1)
  | unicode {p q r s n : ℕ} {bs : List ℕ} : isHexDigit p = true → isHexDigit q = true → isHexDigit r = true → isHexDigit s = true →
      Counts bs n → Counts ('\\'.toNat :: 'u'.toNat :: p :: q :: r :: s :: bs) (n + 1)

theorem counts_of_content (h : Content bs) : ∃ n, Counts bs n := by
  induction h with
  | nil => exact ⟨0,.nil⟩
  | @plain b bs hb _ ih =>
    obtain ⟨n,hn⟩ := ih
    cases hc : isContinuationByte b with
    | true => exact ⟨n,.inside hb hc hn⟩
    | false => exact ⟨n + 1,.first hb hc hn⟩
  | simple he _ ih =>
    obtain ⟨n,hn⟩ := ih
    exact ⟨_,.simple he hn⟩
  | unicode hp hq hr hs _ ih =>
    obtain ⟨n,hn⟩ := ih
    exact ⟨_,.unicode hp hq hr hs hn⟩

def countRound (literal : Text) : ℕ × ℕ → Except Stop (Loop.Flow (ℕ × ℕ) ℕ)
  | (index,count) =>
    if index < literal.length - 1 then do
      let c ← literal.byteAt index
      if c = '\\'.toNat then .ok (.next (index + Lex.escapeLength literal index,count + 1))
      else if isContinuationByte c then .ok (.next (index + 1,count))
      else .ok (.next (index + 1,count + 1))
    else .ok (.done count)

theorem characterLiteralLength_eq (literal : Text) :
    characterLiteralLength literal = loop .endless (countRound literal) (literal.length + 1) (1,0) := rfl

theorem count_loop {count : ℕ} (hn : Counts rest n) (hd : text.bytes.drop i = rest ++ [z]) (hlen : i + rest.length = text.length - 1)
    (hfuel : rest.length < fuel) : loop .endless (countRound text) fuel (i,count) = .ok (count + n) := by
  induction hn generalizing fuel i count with
  | nil =>
    obtain ⟨fuel,rfl⟩ := Nat.exists_eq_succ_of_ne_zero (Nat.ne_zero_of_lt hfuel)
    rw [List.length_nil] at hlen
    exact loop_done (by rw [countRound,if_neg (by omega)]; rfl)
  | @inside b n bs hb hc _ ih =>
    obtain ⟨fuel,rfl⟩ := Nat.exists_eq_succ_of_ne_zero (Nat.ne_zero_of_lt hfuel)
    rw [List.length_cons] at hlen hfuel
    have hbyte : text.bytes[i]? = some b := byte_of_drop (k := 0) hd
    have hround : countRound text (i,count) = .ok (.next (i + 1,count)) := by
      rw [countRound,if_pos (by omega),Text.byteAt_ok hbyte,ok_bind,if_neg hb,if_pos hc]
    rw [loop_next hround,ih (drop_step hd) (by omega) (by omega)]
  | @first b n bs hb hc _ ih =>
    obtain ⟨fuel,rfl⟩ := Nat.exists_eq_succ_of_ne_zero (Nat.ne_zero_of_lt hfuel)
    rw [List.length_cons] at hlen hfuel
    have hbyte : text.bytes[i]? = some b := byte_of_drop (k := 0) hd
    have hround : countRound text (i,count) = .ok (.next (i + 1,count + 1)) := by
      rw [countRound,if_pos (by omega),Text.byteAt_ok hbyte,ok_bind,if_neg hb,if_neg (by rw [hc]; exact Bool.false_ne_true)]
    rw [loop_next hround,ih (drop_step hd) (by omega) (by omega),Nat.add_right_comm,Nat.add_assoc]
  | @simple e n bs he _ ih =>
    obtain ⟨fuel,rfl⟩ := Nat.exists_eq_succ_of_ne_zero (Nat.ne_zero_of_lt hfuel)
    simp only [List.length_cons] at hlen hfuel
    have hbyte : text.bytes[i]? = some '\\'.toNat := byte_of_drop (k := 0) hd
    have hround : countRound text (i,count) = .ok (.next (i + 2,count + 1)) := by
      rw [countRound,if_pos (by omega),Text.byteAt_ok hbyte,ok_bind,if_pos rfl,Lex.escapeLength_simple hd he]
    rw [loop_next hround,ih (drop_step hd) (by omega) (by omega),Nat.add_right_comm,Nat.add_assoc]
  | @unicode p q r s n bs hp hq hr hs _ ih =>
    obtain ⟨fuel,rfl⟩ := Nat.exists_eq_succ_of_ne_zero (Nat.ne_zero_of_lt hfuel)
    simp only [List.length_cons] at hlen hfuel
    have hbyte : text.bytes[i]? = some '\\'.toNat := byte_of_drop (k := 0) hd
    have hround : countRound text (i,count) = .ok (.next (i + 6,count + 1)) := by
      rw [countRound,if_pos (by omega),Text.byteAt_ok hbyte,ok_bind,if_pos rfl,Lex.escapeLength_unicode hd hp hq hr hs]
    rw [loop_next hround,ih (drop_step hd) (by omega) (by omega),Nat.add_right_comm,Nat.add_assoc]

theorem counts_inside (hc : ∀ b ∈ c, Tail b) (hn : Counts (c ++ bs) n) : Counts bs n := by
  induction c with
  | nil => exact hn
  | cons b c ih =>
    have hb := hc b (List.mem_cons_self ..)
    rw [List.cons_append] at hn
    generalize hl : c ++ bs = l at hn
    cases hn with
    | inside _ _ hn => exact ih (fun b hb => hc b (List.mem_cons_of_mem _ hb)) (hl ▸ hn)
    | first _ hfirst _ => exact absurd (isContinuationByte_iff.mpr hb) (by rw [hfirst]; exact Bool.false_ne_true)
    | simple _ _ => exact absurd hb (by decide)
    | unicode _ _ _ _ _ => exact absurd hb (by decide)

theorem counts_zero (hv : Valid bs) (hn : Counts bs 0) : bs = [] := by
  cases hv with
  | nil => rfl
  | @cons c bs hc _ =>
    obtain ⟨a,w,rfl,ha,-⟩ := hc.shape
    rw [List.cons_append] at hn
    generalize w ++ bs = l at hn
    cases hn with
    | inside _ hin _ => exact absurd (isContinuationByte_iff.mp hin) ha

inductive SpellsOne : List ℕ → ℕ → Prop
  | char {n : ℕ} : Scalar n → encode n ≠ ['\\'.toNat] → SpellsOne (encode n) n
  | simple {e : ℕ} : isSimpleEscape e = true → SpellsOne ['\\'.toNat,e] (namedCode e)
  | unicode {p q r s : ℕ} : isHexDigit p = true → isHexDigit q = true → isHexDigit r = true → isHexDigit s = true →
      SpellsOne ['\\'.toNat,'u'.toNat,p,q,r,s] (hexCode p q r s)

theorem spellsOne_of_counts (hv : Valid bs) (hn : Counts bs 1) : ∃ code, SpellsOne bs code := by
  cases hv with
  | nil => cases hn
  | @cons c bs hc hv =>
    rcases char_plain hc with rfl | hplain
    · rw [List.cons_append,List.nil_append] at hn
      cases hn with
      | first hb _ _ => exact absurd rfl hb
      | inside hb _ _ => exact absurd rfl hb
      | simple he hn =>
        rw [counts_zero ((one_valid (isSimpleEscape_ascii he).1).mp hv) hn]
        exact ⟨_,.simple he⟩
      | unicode hp hq hr hs hn =>
        rw [one_valid (by decide),one_valid (isHexDigit_ascii hp),one_valid (isHexDigit_ascii hq),one_valid (isHexDigit_ascii hr),
          one_valid (isHexDigit_ascii hs)] at hv
        rw [counts_zero hv hn]
        exact ⟨_,.unicode hp hq hr hs⟩
    · obtain ⟨a,w,rfl,ha,hw⟩ := hc.shape
      rw [List.cons_append] at hn
      generalize hl : w ++ bs = l at hn
      cases hn with
      | inside _ hin _ => exact absurd (isContinuationByte_iff.mp hin) ha
      | first _ _ hn =>
        obtain rfl := counts_zero hv (counts_inside hw (hl ▸ hn))
        obtain ⟨code,hcode,he⟩ := char_encode hc
        refine ⟨code,?_⟩
        rw [List.append_nil,← he]
        refine .char hcode fun h => ?_
        rw [he] at h
        exact hplain a (List.mem_cons_self ..) (List.cons.inj h).1
      | simple _ _ => exact absurd rfl (hplain _ (List.mem_cons_self ..))
      | unicode _ _ _ _ _ => exact absurd rfl (hplain _ (List.mem_cons_self ..))

theorem decodeUtf8_encode (hd : raw.drop i = encode n ++ rest) (hstop : i + (encode n).length ≤ stop) :
    decodeUtf8 raw i stop = .ok n := by
  rw [encode] at hd hstop
  by_cases h1 : n < 0x80
  · rw [if_pos h1] at hd
    rw [decodeUtf8,show entry raw i = .ok n from entry_drop (k := 0) hd rfl,ok_bind,if_pos h1]
  rw [if_neg h1] at hd hstop
  by_cases h2 : n < 0x800
  · rw [if_pos h2] at hd hstop
    simp only [List.length_cons,List.length_nil] at hstop
    have e0 : entry raw i = .ok (0xC0 + n / 64) := entry_drop (k := 0) hd rfl
    have e1 : entry raw (i + 1) = .ok (0x80 + n % 64) := entry_drop hd rfl
    rw [decodeUtf8,e0,ok_bind,if_neg (by omega),if_pos ⟨by omega,by omega,by omega⟩,e1,ok_bind]
    exact congrArg Except.ok (by omega)
  rw [if_neg h2] at hd hstop
  by_cases h3 : n < 0x10000
  · rw [if_pos h3] at hd hstop
    simp only [List.length_cons,List.length_nil] at hstop
    have e0 : entry raw i = .ok (0xE0 + n / 4096) := entry_drop (k := 0) hd rfl
    have e1 : entry raw (i + 1) = .ok (0x80 + n / 64 % 64) := entry_drop hd rfl
    have e2 : entry raw (i + 2) = .ok (0x80 + n % 64) := entry_drop hd rfl
    rw [decodeUtf8,e0,ok_bind,if_neg (by omega),if_neg (fun h => by omega),if_pos ⟨by omega,by omega,by omega⟩,e1,ok_bind,e2,ok_bind]
    exact congrArg Except.ok (by omega)
  rw [if_neg h3] at hd hstop
  simp only [List.length_cons,List.length_nil] at hstop
  have e0 : entry raw i = .ok (0xF0 + n / 262144) := entry_drop (k := 0) hd rfl
  have e1 : entry raw (i + 1) = .ok (0x80 + n / 4096 % 64) := entry_drop hd rfl
  have e2 : entry raw (i + 2) = .ok (0x80 + n / 64 % 64) := entry_drop hd rfl
  have e3 : entry raw (i + 3) = .ok (0x80 + n % 64) := entry_drop hd rfl
  rw [decodeUtf8,e0,ok_bind,if_neg (by omega),if_neg (fun h => by omega),if_neg (fun h => by omega),if_pos ⟨by omega,by omega⟩,e1,ok_bind,
    e2,ok_bind,e3,ok_bind]
  exact congrArg Except.ok (by omega)

theorem encode_first (n : ℕ) : ∃ a w, encode n = a :: w := by
  unfold encode
  split_ifs <;> exact ⟨_,_,rfl⟩

theorem charCodepoint_ok {code : ℕ} (htext : text.bytes = '\''.toNat :: (body ++ ['\''.toNat])) (hone : SpellsOne body code) :
    charCodepoint text = .ok code := by
  obtain ⟨hquoted,hlen⟩ := quotedBy_text htext
  have hd : text.bytes.drop 1 = body ++ ['\''.toNat] := by rw [htext]; rfl
  rw [charCodepoint,if_pos hquoted,if_pos hquoted]
  cases hone with
  | char hn hne =>
    obtain ⟨a,w,he⟩ := encode_first code
    have hpos : (encode code).length = w.length + 1 := by rw [he,List.length_cons]
    have hentry : entry text.bytes 1 = .ok a := entry_drop (k := 0) (i := 1) (by rw [hd,he]) rfl
    have ha : a ≠ '\\'.toNat := by
      rintro rfl
      have hchar := encode_char hn
      rw [he] at hchar
      exact hne (by rw [he,hchar.ascii (by decide)])
    rw [if_neg (by omega),hentry,ok_bind,if_neg (fun h => ha h.1)]
    exact decodeUtf8_encode hd (by omega)
  | @simple e he =>
    simp only [List.length_cons,List.length_nil] at hlen
    have hentry : entry text.bytes 1 = .ok '\\'.toNat := entry_drop (k := 0) hd rfl
    rw [if_neg (by omega),hentry,ok_bind,if_pos ⟨rfl,by omega⟩]
    exact (escapeCodepoint_simple he hd).1
  | unicode hp hq hr hs =>
    simp only [List.length_cons,List.length_nil] at hlen
    have hentry : entry text.bytes 1 = .ok '\\'.toNat := entry_drop (k := 0) hd rfl
    rw [if_neg (by omega),hentry,ok_bind,if_pos ⟨rfl,by omega⟩]
    exact (escapeCodepoint_unicode hp hq hr hs hd (by omega)).1

/-- The code of one character is that of a character unless an escape names half of a surrogate pair. -/
theorem spellsOne_iff {code : ℕ} (hone : SpellsOne bs code) : Scalar code ↔ ¬NamesSurrogate bs := by
  cases hone with
  | char hn hne =>
    refine iff_of_true hn ?_
    rcases char_plain (encode_char hn) with h | hplain
    · exact absurd h hne
    · rw [← List.append_nil (encode code),namesSurrogate_append hplain]
      exact fun h => by cases h
  | simple he =>
    have hlt := namedCode_ascii he
    refine iff_of_true (.inl (by omega)) ?_
    rw [namesSurrogate_simple (isSimpleEscape_ascii he).2]
    exact fun h => by cases h
  | unicode hp hq hr hs =>
    rw [namesSurrogate_unicode hp hq hr hs,scalar_iff (hexCode_lt hp hq hr hs)]
    exact not_congr (or_iff_left fun h => by cases h).symm

end Ens.Literals
