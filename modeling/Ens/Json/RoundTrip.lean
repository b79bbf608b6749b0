import Ens.Json.Accepts
import Ens.Json.Value
import Mathlib.Tactic.IntervalCases

/-! # What is written is read back

A string is written as the inside of a string that denotes it, and the items of an array or an
object with whitespace and commas where the grammar has them. So the text of a value, on one line
or on several, is a JSON text that denotes the value.
-/
set_option linter.all false
namespace Ens.Json
open Loop
variable {text out : Text} {indent : Option Text} {b i r : ℕ} {s t u w : Bytes} {allow : Bool} {A : Type}

/-! ### Values that can be written -/

inductive WellFormed : Json → Prop
  | null : WellFormed .null
  | bool {b : Bool} : WellFormed (.bool b)
  | number {text : Text} : Number text.bytes [] → WellFormed (.number text)
  | string {text : Text} : WellFormed (.string text)
  | array {elements : List Json} : (∀ v ∈ elements, WellFormed v) → WellFormed (.array elements)
  | object {members : List (Text × Json)} : (members.map Prod.fst).Nodup → (∀ m ∈ members, WellFormed m.2) →
      WellFormed (.object members)

mutual

def depth : Json → ℕ
  | .array elements => depthElements elements
  | .object members => depthMembers members
  | .null | .bool _ | .number _ | .string _ => 0

def depthElements : List Json → ℕ
  | [] => 0
  | v :: rest => max (depth v + 1) (depthElements rest)

def depthMembers : List (Text × Json) → ℕ
  | [] => 0
  | (_,v) :: rest => max (depth v + 1) (depthMembers rest)

end

theorem depth_lt_elements {v : Json} {vs : List Json} (h : v ∈ vs) : depth v < depth (.array vs) := by
  rw [depth]
  induction vs with
  | nil => cases h
  | cons x vs ih =>
    rw [depthElements]
    rcases List.mem_cons.mp h with rfl | h
    · exact lt_max_of_lt_left (Nat.lt_succ_self _)
    · exact lt_max_of_lt_right (ih h)

theorem depth_lt_members {m : Text × Json} {ms : List (Text × Json)} (h : m ∈ ms) : depth m.2 < depth (.object ms) := by
  rw [depth]
  induction ms with
  | nil => cases h
  | cons x ms ih =>
    obtain ⟨k,v⟩ := x
    rw [depthMembers]
    rcases List.mem_cons.mp h with rfl | h
    · exact lt_max_of_lt_left (Nat.lt_succ_self _)
    · exact lt_max_of_lt_right (ih h)

/-! ### Numbers -/

theorem Run.frame {p : ℕ → Bool} (h : Run p s u) (t : Bytes) : Run p (s ++ t) (u ++ t) := by
  obtain ⟨w,rfl,hw⟩ := h
  exact ⟨w,List.append_assoc ..,hw⟩

theorem Digits.frame (h : Digits s u) (t : Bytes) : Digits (s ++ t) (u ++ t) := by
  cases h with
  | mk hb hr => exact .mk hb (hr.frame t)

theorem Minus.frame (h : Minus s u) (t : Bytes) : Minus (s ++ t) (u ++ t) := by
  cases h with
  | absent => exact .absent
  | present => exact .present

theorem Whole.frame (h : Whole s u) (t : Bytes) : Whole (s ++ t) (u ++ t) := by
  cases h with
  | zero => exact .zero
  | digits h0 hd => exact .digits h0 (hd.frame t)

theorem Fraction.frame (h : Fraction s u) (t : Bytes) : Fraction (s ++ t) (u ++ t) := by
  cases h with
  | absent => exact .absent
  | present hd => exact .present (hd.frame t)

theorem Sign.frame (h : Sign s u) (t : Bytes) : Sign (s ++ t) (u ++ t) := by
  cases h with
  | absent => exact .absent
  | present hb => exact .present hb

theorem Exponent.frame (h : Exponent s u) (t : Bytes) : Exponent (s ++ t) (u ++ t) := by
  cases h with
  | absent => exact .absent
  | present hb hs hd => exact .present hb (hs.frame t) (hd.frame t)

theorem Number.frame (h : Number s u) (t : Bytes) : Number (s ++ t) (u ++ t) := by
  obtain ⟨hm,hw,hf,he⟩ := h
  exact .mk (hm.frame t) (hw.frame t) (hf.frame t) (he.frame t)

/-! ### Strings -/

theorem hexDigit_writes {v : ℕ} (h : v < 16) : ∃ u x, hexDigit v = .ok u ∧ u.bytes = [x] ∧ hexValue x = some v := by
  interval_cases v <;> exact ⟨_,_,rfl,rfl,rfl⟩

theorem escapeOf_escapes (b : ℕ) :
    (escapeOf b = .ok none ∧ 0x20 ≤ b ∧ b ≠ '"'.toNat ∧ b ≠ '\\'.toNat) ∨
      ∃ e s, b < 0x80 ∧ escapeOf b = .ok (some e) ∧ e.bytes = '\\'.toNat :: s ∧ ∀ t, Escape (s ++ t) [b] t := by
  have hletter {c : Char} {code : ℕ} {e : Text} (hcode : code < 0x80) (h : escapeOf code = .ok (some e))
      (he : e.bytes = ['\\'.toNat,c.toNat]) (hc : (c,code) ∈ letters) :
      ∃ e s, code < 0x80 ∧ escapeOf code = .ok (some e) ∧ e.bytes = '\\'.toNat :: s ∧ ∀ t, Escape (s ++ t) [code] t :=
    ⟨e,[c.toNat],hcode,h,he,fun _ => .letter hc⟩
  by_cases hquote : b = '"'.toNat
  · subst hquote
    exact .inr ⟨ascii "\\\"",['"'.toNat],by decide,rfl,rfl,fun t => .itself (.inl rfl)⟩
  by_cases hback : b = '\\'.toNat
  · subst hback
    exact .inr ⟨ascii "\\\\",['\\'.toNat],by decide,rfl,rfl,fun t => .itself (.inr (.inl rfl))⟩
  by_cases h8 : b = 8
  · subst h8
    exact .inr (hletter (c := 'b') (by decide) rfl rfl (by simp [letters]))
  by_cases h9 : b = '\t'.toNat
  · subst h9
    exact .inr (hletter (c := 't') (by decide) rfl rfl (by simp [letters]))
  by_cases h10 : b = '\n'.toNat
  · subst h10
    exact .inr (hletter (c := 'n') (by decide) rfl rfl (by simp [letters]))
  by_cases h12 : b = 12
  · subst h12
    exact .inr (hletter (c := 'f') (by decide) rfl rfl (by simp [letters]))
  by_cases h13 : b = '\r'.toNat
  · subst h13
    exact .inr (hletter (c := 'r') (by decide) rfl rfl (by simp [letters]))
  rw [escapeOf,if_neg hquote,if_neg hback,if_neg h8,if_neg h9,if_neg h10,if_neg h12,if_neg h13]
  by_cases hlow : b < 0x20
  · right
    obtain ⟨high,x,hh,hhb,hx⟩ := hexDigit_writes (show b / 16 < 16 by omega)
    obtain ⟨low,y,hl,hlb,hy⟩ := hexDigit_writes (show b % 16 < 16 by omega)
    have hcode : ((0 * 16 + 0) * 16 + b / 16) * 16 + b % 16 = b := by omega
    have hencode : Utf8.encode b = [b] := by rw [Utf8.encode,if_pos (by omega)]
    refine ⟨((ascii "\\u00").append high).append low,['u'.toNat,'0'.toNat,'0'.toNat,x,y],by omega,?_,?_,fun t => ?_⟩
    · rw [if_pos hlow,hh,ok_bind,hl,ok_bind]
    · rw [Text.append_bytes,Text.append_bytes,hhb,hlb]
      rfl
    · have hhex : Hex4 ('0'.toNat :: '0'.toNat :: x :: y :: t) b t := hcode ▸ .mk (by decide) (by decide) hx hy
      rw [← hencode]
      exact .unicode hhex (.inl (by omega))
  · exact .inl ⟨by rw [if_neg hlow],by omega,hquote,hback⟩

def written (b : ℕ) : Bytes :=
  match escapeOf b with
  | .ok (some e) => e.bytes
  | _ => [b]

theorem body_written (d t : Bytes) : Body (d.flatMap written ++ '"'.toNat :: t) d ('"'.toNat :: t) := by
  induction d with
  | nil => exact .nil
  | cons b d ih =>
    rw [List.flatMap_cons,List.append_assoc]
    rcases escapeOf_escapes b with ⟨h,h1,h2,h3⟩ | ⟨e,s,-,h,he,hs⟩
    · simp only [written,h,List.singleton_append]
      exact .plain h1 h2 h3 ih
    · simp only [written,h,he,List.cons_append]
      exact .escape (hs _) ih

structure Quoting (text : Text) (front : Bytes) (k : ℕ) (out : Text) (r : ℕ) : Prop where
  le : r ≤ k
  boundary : Utf8.Boundary text.bytes r
  bytes : out.bytes ++ (text.bytes.take k).drop r = front ++ (text.bytes.take k).flatMap written

theorem quoteByte_quoting (h : Quoting text s i out r) (hi : i < text.length) :
    ∃ out' r', quoteByte text (out,r) i = .ok (out',r') ∧ Quoting text s (i + 1) out' r' := by
  obtain ⟨hle,hr,hb⟩ := h
  have hi' : i < text.bytes.length := hi
  have hget := List.getElem?_eq_getElem hi'
  have htake : text.bytes.take (i + 1) = text.bytes.take i ++ [text.bytes[i]] :=
    (List.take_append_getElem hi').symm
  have hlen : (text.bytes.take i).length = i := List.length_take_of_le hi.le
  rw [quoteByte,Text.byteAt_ok hget,ok_bind]
  generalize text.bytes[i] = b at *
  rcases escapeOf_escapes b with ⟨he,-⟩ | ⟨e,w,hascii,he,-⟩
  · have hw : written b = [b] := by rw [written,he]
    refine ⟨out,r,by rw [he,ok_bind],by omega,hr,?_⟩
    rw [htake,List.drop_append_of_le_length (by omega),← List.append_assoc,hb,List.flatMap_append,
      List.flatMap_singleton,hw,List.append_assoc]
  · have hw : written b = e.bytes := by rw [written,he]
    obtain ⟨run,hrun,hrb⟩ := Text.substring_ok hr (Utf8.boundary_of_ascii hget hascii) hle
    refine ⟨(out.append run).append e,i + 1,by rw [he,ok_bind]; simp only [hrun,ok_bind],le_refl _,
      Utf8.Valid.boundary_succ text.valid hget hascii,?_⟩
    have hnil : (text.bytes.take (i + 1)).drop (i + 1) = [] := List.drop_eq_nil_of_le (List.length_take_le _ _)
    rw [hnil,List.append_nil,Text.append_bytes,Text.append_bytes,hrb,hb,htake,List.flatMap_append,
      List.flatMap_singleton,hw,List.append_assoc]

theorem quoteBytes_quoting (out : Text) {k : ℕ} (hk : k ≤ text.length) :
    ∃ out' r', (List.range k).foldlM (quoteByte text) (out,0) = .ok (out',r') ∧ Quoting text out.bytes k out' r' := by
  induction k with
  | zero => exact ⟨out,0,rfl,le_refl 0,Utf8.boundary_zero text.valid,by simp⟩
  | succ k ih =>
    obtain ⟨o,r,h,hq⟩ := ih (by omega)
    obtain ⟨o',r',h',hq'⟩ := quoteByte_quoting hq (show k < text.length by omega)
    refine ⟨o',r',?_,hq'⟩
    rw [List.range_succ,List.foldlM_append,h,ok_bind,List.foldlM_cons,h',ok_bind]
    rfl

/-- A part of writing never fails, and writes bytes with a property to the end. -/
def Writes (m : Text → Except Stop Text) (P : Bytes → Prop) : Prop :=
  ∀ out, ∃ o w, m out = .ok o ∧ o.bytes = out.bytes ++ w ∧ P w

theorem Writes.mono {m : Text → Except Stop Text} {P Q : Bytes → Prop} (h : Writes m P) (hPQ : ∀ w, P w → Q w) :
    Writes m Q := by
  intro out
  obtain ⟨o,w,ho,hb,hw⟩ := h out
  exact ⟨o,w,ho,hb,hPQ w hw⟩

theorem writes_append {u : Text} {P : Bytes → Prop} (h : P u.bytes) : Writes (fun out => .ok (out.append u)) P :=
  fun out => ⟨out.append u,u.bytes,rfl,rfl,h⟩

theorem quote_writes (text : Text) : Writes (fun out => quote out text) fun w => ∀ t, Quoted (w ++ t) text t := by
  intro out
  obtain ⟨o,r,h,hle,hr,hb⟩ := quoteBytes_quoting (out.append (ascii "\"")) (le_refl text.length)
  obtain ⟨run,hrun,hrb⟩ := Text.substringFrom_ok hr
  refine ⟨(o.append run).append (ascii "\""),'"'.toNat :: text.bytes.flatMap written ++ ['"'.toNat],?_,?_,fun t => ?_⟩
  · simp only [quote,h,ok_bind,hrun]
  · have htake : text.bytes.take text.length = text.bytes := List.take_length
    rw [htake] at hb
    rw [Text.append_bytes,Text.append_bytes,hrb,hb,Text.append_bytes]
    simp only [List.append_assoc]
    rfl
  · have := body_written text.bytes t
    simp only [List.cons_append,List.append_assoc,List.nil_append]
    exact .mk this

/-! ### Whitespace and commas -/

theorem breakLine_ws (hi : ∀ u, indent = some u → ∀ b ∈ u.bytes, isWhitespace b = true) (out : Text) (n : ℕ) :
    ∃ w, (breakLine out indent n).bytes = out.bytes ++ w ∧ ∀ b ∈ w, isWhitespace b = true := by
  cases indent with
  | none => exact ⟨[],by simp [breakLine],by simp⟩
  | some u =>
    rw [breakLine]
    induction n with
    | zero => exact ⟨utf8 "\n",rfl,by decide⟩
    | succ n ih =>
      obtain ⟨w,hw,hws⟩ := ih
      refine ⟨w ++ u.bytes,?_,fun b hb => ?_⟩
      · rw [List.range_succ,List.foldl_append,List.foldl_cons,List.foldl_nil,Text.append_bytes,hw,List.append_assoc]
      · rcases List.mem_append.mp hb with hb | hb
        · exact hws b hb
        · exact hi u rfl b hb

theorem separate_ws (hi : ∀ u, indent = some u → ∀ b ∈ u.bytes, isWhitespace b = true) (out : Text) (first : Bool)
    (n : ℕ) : ∃ w, (separate out first indent n).bytes = out.bytes ++ ((if first then [] else [','.toNat]) ++ w) ∧
      ∀ b ∈ w, isWhitespace b = true := by
  have hcomma : utf8 "," = [','.toNat] := by decide
  cases indent with
  | none =>
    cases first with
    | true => exact ⟨[],by simp [separate],by simp⟩
    | false => exact ⟨utf8 " ",by simp [separate,ascii,hcomma],by decide⟩
  | some u =>
    obtain ⟨w,hw,hws⟩ := breakLine_ws hi (if first then out else out.append (ascii ",")) n
    refine ⟨w,?_,hws⟩
    cases first with
    | true => exact hw
    | false => simpa [separate,ascii,hcomma] using hw

/-! ### Items -/

/-- Items in a row, each but the last followed by a comma. -/
def Row (item : Reads A) (s : Bytes) (vs : List A) (t : Bytes) : Prop :=
  ∃ ms m x, vs = ms ++ [m] ∧ Listed item s ms x ∧ item x m t

theorem Row.one {item : Reads A} {v : A} (h : item s v t) : Row item s [v] t := ⟨[],v,s,rfl,.nil,h⟩

theorem Row.cons {item : Reads A} {v : A} {vs : List A} (h : item s v (','.toNat :: w)) (hw : Ws w u)
    (hr : Row item u vs t) : Row item s (v :: vs) t := by
  obtain ⟨ms,m,x,rfl,hl,hm⟩ := hr
  exact ⟨v :: ms,m,x,rfl,.cons h ⟨[],rfl,by simp⟩ hw hl,hm⟩

def writeItems (item : Text → A → Except Stop Text) (indent : Option Text) (depth : ℕ) (out : Text) (first : Bool) :
    List A → Except Stop (Text × Bool)
  | [] => .ok (out,first)
  | a :: rest => do
    let out ← item (separate out first indent (depth + 1)) a
    writeItems item indent depth out false rest

theorem writeElements_eq (n : ℕ) (out : Text) (first : Bool) (vs : List Json) :
    writeElements indent out first n vs =
      writeItems (fun out v => write indent out (n + 1) v) indent n out first vs := by
  induction vs generalizing out first with
  | nil => rfl
  | cons v vs ih =>
    rw [writeElements,writeItems]
    congr 1
    funext out
    exact ih out false

theorem writeMembers_eq (n : ℕ) (out : Text) (first : Bool) (ms : List (Text × Json)) :
    writeMembers indent out first n ms = writeItems (fun out m => do
      let out ← quote out m.1
      write indent (out.append (ascii ": ")) (n + 1) m.2) indent n out first ms := by
  induction ms generalizing out first with
  | nil => rfl
  | cons m ms ih =>
    obtain ⟨key,value⟩ := m
    rw [writeMembers,writeItems,bind_assoc]
    congr 1
    funext o
    congr 1
    funext o'
    exact ih o' false

theorem writeItems_row {item : Text → A → Except Stop Text} {rel : Reads A} {n : ℕ} {vs : List A}
    (hi : ∀ u, indent = some u → ∀ b ∈ u.bytes, isWhitespace b = true) (hne : vs ≠ [])
    (hitem : ∀ v ∈ vs, Writes (fun out => item out v) fun w => ∀ t, rel (w ++ t) v t) (out : Text) (first : Bool) :
    ∃ o ws w, writeItems item indent n out first vs = .ok (o,false) ∧
      o.bytes = out.bytes ++ ((if first then [] else [','.toNat]) ++ ws ++ w) ∧ (∀ b ∈ ws, isWhitespace b = true) ∧
      ∀ t, Row rel (w ++ t) vs t := by
  induction vs generalizing out first with
  | nil => exact absurd rfl hne
  | cons v vs ih =>
    obtain ⟨ws,hs,hws⟩ := separate_ws hi out first (n + 1)
    obtain ⟨o,w,ho,hb,hw⟩ := hitem v (List.mem_cons_self ..) (separate out first indent (n + 1))
    dsimp only at ho
    cases vs with
    | nil =>
      refine ⟨o,ws,w,by simp only [writeItems,ho,ok_bind],?_,hws,fun t => .one (hw t)⟩
      rw [hb,hs,List.append_assoc]
    | cons v' vs =>
      obtain ⟨o',ws',w',ho',hb',hws',hrow⟩ := ih (by simp) (fun x hx => hitem x (List.mem_cons_of_mem _ hx)) o false
      refine ⟨o',ws,w ++ (','.toNat :: ws' ++ w'),by rw [writeItems,ho,ok_bind,ho'],?_,hws,fun t => ?_⟩
      · rw [hb',hb,hs]
        simp
      · refine .cons (w := ws' ++ w' ++ t) ?_ ⟨ws',List.append_assoc ..,hws'⟩ (hrow t)
        have := hw (','.toNat :: ws' ++ w' ++ t)
        simpa using this

/-- The items between brackets: nothing where there is none, and else a row with whitespace
around it. -/
theorem writeItems_within {item : Text → A → Except Stop Text} {rel : Reads A} {n : ℕ} {vs : List A}
    (hi : ∀ u, indent = some u → ∀ b ∈ u.bytes, isWhitespace b = true)
    (hitem : ∀ v ∈ vs, Writes (fun out => item out v) fun w => ∀ t, rel (w ++ t) v t) (first last : Text) :
    Writes (fun out => do
      let (out,isEmpty) ← writeItems item indent n (out.append first) true vs
      let out := if isEmpty then out else breakLine out indent n
      .ok (out.append last)) fun w => ∃ w', w = first.bytes ++ w' ++ last.bytes ∧
        ((vs = [] ∧ w' = []) ∨ ∀ t, ∃ u y, Ws (w' ++ t) u ∧ Row rel u vs y ∧ Ws y t) := by
  intro out
  by_cases hvs : vs = []
  · subst hvs
    exact ⟨(out.append first).append last,first.bytes ++ last.bytes,rfl,List.append_assoc ..,[],by simp,.inl ⟨rfl,rfl⟩⟩
  · obtain ⟨o,ws,w,ho,hb,hws,hrow⟩ := writeItems_row (n := n) hi hvs hitem (out.append first) true
    obtain ⟨we,hwe,hwse⟩ := breakLine_ws hi o n
    refine ⟨(breakLine o indent n).append last,first.bytes ++ (ws ++ w ++ we) ++ last.bytes,?_,?_,
      _,rfl,.inr fun t => ⟨w ++ (we ++ t),we ++ t,⟨ws,by simp,hws⟩,hrow _,we,rfl,hwse⟩⟩
    · simp only [ho,ok_bind,Bool.false_eq_true,if_false]
    · rw [Text.append_bytes,hwe,hb,Text.append_bytes]
      simp

theorem ofList_nodup {ms : List (Text × Json)} (h : (ms.map Prod.fst).Nodup) : Members.ofList ms = ms := by
  induction ms using List.reverseRecOn with
  | nil => rfl
  | append_singleton ms m ih =>
    rw [List.map_append,List.map_singleton,List.nodup_append] at h
    obtain ⟨h1,-,h2⟩ := h
    have hm : m.1 ∉ ms.map Prod.fst := fun hm => h2 _ hm _ (List.mem_singleton_self _) rfl
    rw [Members.ofList_concat,ih h1,Members.set,Members.contains_eq,if_neg (by simpa using hm)]

/-! ### Values -/

theorem write_reads (hi : ∀ u, indent = some u → ∀ b ∈ u.bytes, isWhitespace b = true) {n : ℕ} {v : Json}
    (hv : WellFormed v) (hd : depth v < n) (level : ℕ) :
    Writes (fun out => write indent out level v) fun w => ∀ t, Value allow n (w ++ t) v t := by
  induction n generalizing v level with
  | zero => omega
  | succ n ih =>
    cases hv with
    | null => exact writes_append fun t => .null
    | @bool b =>
      cases b with
      | true => exact writes_append fun t => .true
      | false => exact writes_append fun t => .false
    | number hn => exact writes_append fun t => .number (hn.frame t)
    | string => exact (quote_writes _).mono fun w hw t => .string (hw t)
    | @array elements he =>
      have hitem : ∀ x ∈ elements, Writes (fun out => write indent out (level + 1) x) fun w =>
          ∀ t, Value allow n (w ++ t) x t := fun x hx =>
        ih (he x hx) (Nat.lt_of_lt_of_le (depth_lt_elements hx) (Nat.lt_succ_iff.mp hd)) (level + 1)
      have := (writeItems_within (n := level) hi hitem (ascii "[") (ascii "]")).mono
        (Q := fun w => ∀ t, Value allow (n + 1) (w ++ t) (.array elements) t) ?_
      · simpa only [write,writeElements_eq] using this
      rintro w ⟨w',rfl,⟨rfl,rfl⟩ | hrow⟩ t
      · exact .emptyArray ⟨[],rfl,by simp⟩
      · obtain ⟨u,y,hu,⟨ms,m,x,rfl,hl,hm⟩,hy⟩ := hrow (']'.toNat :: t)
        have hval : Shape allow (Value allow n) _ _ t := .array hu hl hm hy
        have h1 : (ascii "[").bytes = ['['.toNat] := by decide
        have h2 : (ascii "]").bytes = [']'.toNat] := by decide
        rw [h1,h2,List.append_assoc,List.append_assoc]
        exact hval
    | @object members hk hm =>
      have hitem : ∀ x ∈ members, Writes (fun out => do
          let out ← quote out x.1
          write indent (out.append (ascii ": ")) (level + 1) x.2) fun w => ∀ t, Member (Value allow n) (w ++ t) x t := by
        intro x hx out
        obtain ⟨o,w,ho,hob,hw⟩ := quote_writes x.1 out
        obtain ⟨o',w',ho',hob',hw'⟩ := ih (hm x hx) (Nat.lt_of_lt_of_le (depth_lt_members hx) (Nat.lt_succ_iff.mp hd))
          (level + 1) (o.append (ascii ": "))
        dsimp only at ho ho'
        refine ⟨o',w ++ (':'.toNat :: ' '.toNat :: w'),by simp only [ho,ok_bind,ho'],?_,fun t => ?_⟩
        · rw [hob',Text.append_bytes,hob,List.append_assoc,List.append_assoc]
          rfl
        · have hq := hw (':'.toNat :: ' '.toNat :: (w' ++ t))
          rw [List.append_assoc]
          exact .mk hq ⟨[],rfl,by simp⟩ ⟨[' '.toNat],rfl,by decide⟩ (hw' t)
      have := (writeItems_within (n := level) hi hitem (ascii "\x7b") (ascii "\x7d")).mono
        (Q := fun w => ∀ t, Value allow (n + 1) (w ++ t) (.object members) t) ?_
      · simpa only [write,writeMembers_eq] using this
      rintro w ⟨w',rfl,⟨rfl,rfl⟩ | hrow⟩ t
      · exact .emptyObject ⟨[],rfl,by simp⟩
      · obtain ⟨u,y,hu,⟨ms,m,x,rfl,hl,hm⟩,hy⟩ := hrow ('}'.toNat :: t)
        have hval : Shape allow (Value allow n) _ _ t := .object hu hl hm hy (.inr hk)
        have h1 : (ascii "\x7b").bytes = ['{'.toNat] := by decide
        have h2 : (ascii "\x7d").bytes = ['}'.toNat] := by decide
        rw [ofList_nodup hk] at hval
        rw [h1,h2,List.append_assoc,List.append_assoc]
        exact hval

theorem shape_unmarked {inner : Reads Json} {v : Json} (h : Shape allow inner s v t) : s.head? ≠ some 0xEF := by
  cases h with
  | null | true | false => simp [utf8_null,utf8_true,utf8_false]
  | number hn =>
    obtain ⟨b,u,hs,hb⟩ := number_head hn
    rw [hs]
    rcases hb with rfl | hb
    · simp
    · have := isDigit_ascii hb
      simp only [List.head?_cons,ne_eq,Option.some.injEq]
      omega
  | string hq =>
    cases hq with
    | mk _ => simp
  | emptyArray _ | array _ _ _ _ | emptyObject _ | object _ _ _ _ _ => simp

theorem parse_written {v : Json} (hi : ∀ u, indent = some u → ∀ b ∈ u.bytes, isWhitespace b = true)
    (hv : WellFormed v) (hd : depth v ≤ Limits.depth) :
    ∃ text, write indent .empty 0 v = .ok text ∧ parse text allow = .ok v := by
  have hwrites : Writes (fun out => write indent out 0 v) fun w => ∀ t, Value allow (Limits.depth + 1) (w ++ t) v t :=
    write_reads hi hv (Nat.lt_succ_of_le hd) 0
  obtain ⟨text,w,h,hb,hw⟩ := hwrites .empty
  have hval := hw []
  rw [Text.empty_bytes,List.nil_append] at hb
  rw [List.append_nil,← hb] at hval
  refine ⟨text,h,parse_complete ⟨text.bytes,[],?_,hval,[],rfl,by simp⟩⟩
  rw [afterMark_cons]
  · exact ⟨[],rfl,by simp⟩
  · rintro ⟨u,hu⟩
    exact shape_unmarked hval (by rw [hu]; rfl)

/-- Both texts of a value are read back as the value. -/
theorem parse_compact_indented (v : Json) (allowDuplicateKeys : Bool) (hv : WellFormed v) (hd : depth v ≤ Limits.depth) :
    (∃ text, compact v = .ok text ∧ parse text allowDuplicateKeys = .ok v) ∧
      ∀ indent : Text, (∀ b ∈ indent.bytes, isWhitespace b = true) →
        ∃ text, indented v indent = .ok text ∧ parse text allowDuplicateKeys = .ok v := by
  refine ⟨parse_written (fun u hu => nomatch hu) hv hd,fun indent hindent => parse_written (fun u hu => ?_) hv hd⟩
  cases hu
  exact hindent

/-- An array of an empty object and a number, on one line and with an indent of a tab. -/
theorem parse_compact_indented_array :
    (∃ text, compact (.array [.object [],.number (ascii "-0.5e9")]) = .ok text ∧
      parse text false = .ok (.array [.object [],.number (ascii "-0.5e9")])) ∧
    ∃ text, indented (.array [.object [],.number (ascii "-0.5e9")]) (ascii "\t") = .ok text ∧
      parse text false = .ok (.array [.object [],.number (ascii "-0.5e9")]) := by
  have hn : Number (ascii "-0.5e9").bytes [] :=
    .mk .present .zero (.present (.mk (by decide) ⟨[],rfl,by simp⟩))
      (.present (by decide) .absent (.mk (by decide) ⟨[],rfl,by simp⟩))
  have hv : WellFormed (.array [.object [],.number (ascii "-0.5e9")]) := by
    refine .array fun v hv => ?_
    rcases List.mem_pair.mp hv with rfl | rfl
    · exact .object List.nodup_nil fun _ hm => nomatch hm
    · exact .number hn
  obtain ⟨h1,h2⟩ := parse_compact_indented _ false hv (by decide)
  exact ⟨h1,h2 _ (by decide)⟩

end Ens.Json
