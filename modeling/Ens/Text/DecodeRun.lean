import Ens.Text.DecodeSpec

/-! # The three readers agree with UTF-8

The first reader refuses what is not well formed, the second replaces exactly the malformed parts, and the third gives the numbers whose
characters a text is made of.
-/
set_option linter.all false
namespace Ens.Decode
open Loop Text Utf8
variable {raw data built c out w ys : List ℕ} {i k n value written read : ℕ}

/-! ### The first reader -/

/-- The place a reader stops at: all before it is well formed, and either it is the end or no character stands there. -/
def Stops (raw : List ℕ) (at' : ℤ) : Prop :=
  (at' = -1 ∧ Valid raw) ∨ ∃ i : ℕ, at' = i ∧ i < raw.length ∧ Valid (raw.take i) ∧ (∀ c, Char c → ¬c <+: raw.drop i) ∧ ¬Valid raw

/-- Well-formed bytes before a place say nothing about the bytes after it. -/
def Read (raw : List ℕ) (i : ℕ) : Prop := i ≤ raw.length ∧ Valid (raw.take i) ∧ (Valid (raw.drop i) ↔ Valid raw)

theorem Read.next (h : Read raw i) (hc : Char c) (hp : c <+: raw.drop i) : Read raw (i + c.length) := by
  obtain ⟨hi,hv,hiff⟩ := h
  obtain ⟨rest,hrest⟩ := hp
  have hlen := congrArg List.length hrest
  rw [List.length_append,List.length_drop] at hlen
  refine ⟨by omega,?_,?_⟩
  · rw [List.take_add,← hrest,List.take_left]
    simpa using hv.append (.cons hc .nil)
  · rw [← hiff,← List.drop_drop,← hrest,List.drop_left]
    exact (valid_cons_iff hc).symm

theorem found (hw : 0 < widthOf (raw.drop i)) : ∃ c, Char c ∧ c <+: raw.drop i ∧ c.length = widthOf (raw.drop i) := by
  obtain ⟨c,rest,hdrop,hc,hlen⟩ := char_of_widthOf hw
  exact ⟨c,hc,⟨rest,hdrop.symm⟩,hlen⟩

theorem firstInvalidUtf8_stops (raw : List ℕ) : ∃ at', firstInvalidUtf8 raw = .ok at' ∧ Stops raw at' := by
  refine loop_ok (I := Read raw) (fun i => raw.length - i) (fun i hi => ?_) ⟨Nat.zero_le _,.nil,Iff.rfl⟩ (by omega)
  by_cases hlt : i < raw.length
  · rw [if_pos hlt,characterWidth_eq hlt,ok_bind]
    by_cases hw : widthOf (raw.drop i) = 0
    · rw [if_pos hw]
      have hne : raw.drop i ≠ [] := fun hnil => absurd (List.drop_eq_nil_iff.mp hnil) (by omega)
      exact .inl ⟨i,rfl,.inr ⟨i,rfl,hlt,hi.2.1,fun c hc => no_char hw hc,fun hv => not_valid hw hne (hi.2.2.mpr hv)⟩⟩
    · rw [if_neg hw]
      obtain ⟨c,hc,hp,hlen⟩ := found (Nat.pos_of_ne_zero hw)
      rw [← hlen]
      have hpos := hc.length_pos
      exact .inr ⟨i + c.length,rfl,hi.next hc hp,by omega⟩
  · rw [if_neg hlt]
    obtain rfl : i = raw.length := Nat.le_antisymm hi.1 (Nat.le_of_not_lt hlt)
    exact .inl ⟨-1,rfl,.inl ⟨rfl,by simpa using hi.2.1⟩⟩

/-! ### The second reader -/

theorem malformed_of (hnone : widthOf (raw.drop i) = 0) (hpos : 0 < k) (hle : i + k ≤ raw.length)
    (hmost : ∀ v, v <+: raw.drop i → Begins v → v.length ≤ k) (hbegins : k = 1 ∨ Begins ((raw.drop i).take k)) :
    Malformed ((raw.drop i).take k) (raw.drop (i + k)) := by
  have hlen : ((raw.drop i).take k).length = k := by
    rw [List.length_take,List.length_drop]
    omega
  have hsplit : (raw.drop i).take k ++ raw.drop (i + k) = raw.drop i := by rw [← List.drop_drop,List.take_append_drop]
  refine ⟨fun hnil => ?_,fun c hc => ?_,fun v hv hb => ?_,?_⟩
  · rw [hnil] at hlen
    exact absurd hlen (Nat.ne_of_lt hpos)
  · rw [hsplit]
    exact no_char hnone hc
  · rw [hsplit] at hv
    rw [hlen]
    exact hmost v hv hb
  · rwa [hlen]

/-- How far the bytes that continue a character go, at most to the width of its lead. -/
def Reaches (raw : List ℕ) (i width taken : ℕ) : Prop :=
  2 ≤ taken ∧ taken ≤ width ∧ i + taken ≤ raw.length ∧ ∀ x ∈ ((raw.drop (i + 2)).take (taken - 2)), Tail x

theorem reaches_loop {width : ℕ} (hwidth : 2 ≤ width) (hlen : i + 2 ≤ raw.length) : ∃ taken,
    loop .endless (fun taken =>
      if taken < width ∧ i + taken < raw.length then do
        if insideCharacter (← entry raw (i + taken)) then .ok (.next (taken + 1)) else .ok (.done taken)
      else .ok (.done taken)) (width + 1) 2 = .ok taken ∧
      Reaches raw i width taken ∧ (taken < width → ∀ x, raw[i + taken]? = some x → ¬Tail x) := by
  refine loop_ok (I := Reaches raw i width) (fun taken => width - taken) (fun taken ht => ?_)
    ⟨Nat.le_refl 2,hwidth,hlen,fun x hx => absurd hx (by simp)⟩ (by omega)
  have ⟨htwo,hle,hend,htail⟩ := ht
  by_cases hgo : taken < width ∧ i + taken < raw.length
  · rw [if_pos hgo,entry_ok (List.getElem?_eq_getElem hgo.2),ok_bind]
    cases hinside : insideCharacter raw[i + taken] with
    | true =>
      refine .inr ⟨taken + 1,rfl,⟨by omega,hgo.1,hgo.2,fun x hx => ?_⟩,by omega⟩
      rw [show taken + 1 - 2 = taken - 2 + 1 by omega,List.take_add_one,List.getElem?_drop,show i + 2 + (taken - 2) = i + taken by omega,
        List.getElem?_eq_getElem hgo.2] at hx
      rcases List.mem_append.mp hx with hx | hx
      · exact htail x hx
      · obtain rfl : x = raw[i + taken] := by simpa using hx
        exact insideCharacter_iff.mp hinside
    | false =>
      refine .inl ⟨taken,rfl,ht,fun _ x hx => ?_⟩
      rw [List.getElem?_eq_getElem hgo.2] at hx
      cases hx
      rw [← insideCharacter_iff,hinside]
      exact Bool.false_ne_true
  · rw [if_neg hgo]
    refine .inl ⟨taken,rfl,ht,fun hlt x hx => ?_⟩
    exact absurd (List.getElem?_eq_some_iff.mp hx).1 (by omega)

theorem malformedWidth_eq (hi : i < raw.length) (hnone : widthOf (raw.drop i) = 0) :
    ∃ width, malformedWidth raw i = .ok width ∧ 0 < width ∧ i + width ≤ raw.length ∧
      Malformed ((raw.drop i).take width) (raw.drop (i + width)) := by
  obtain ⟨lead,rest,hdrop,hlead,hrest⟩ := drop_of_lt hi
  have hlen := congrArg List.length hdrop
  rw [List.length_drop,List.length_cons] at hlen
  rw [malformedWidth,entry_ok hlead,ok_bind]
  by_cases hfew : leadWidth lead < 2 ∨ raw.length ≤ i + 1
  · rw [if_pos hfew]
    refine ⟨1,rfl,Nat.one_pos,hi,malformed_of hnone Nat.one_pos hi (fun v hv hb => ?_) (.inl rfl)⟩
    rw [hdrop] at hv
    rcases List.prefix_cons_iff.mp hv with rfl | ⟨v',rfl,hv'⟩
    · exact Nat.zero_le 1
    · have hlead' := hb.lead
      have hshort := hv'.length_le
      rw [List.length_cons]
      omega
  rw [if_neg hfew]
  have hnext : i + 1 < raw.length := by omega
  obtain ⟨second,rest',hdrop',hsecond,hrest'⟩ := drop_of_lt hnext
  rw [← hrest] at hdrop'
  subst hdrop'
  rw [entry_ok hsecond,ok_bind]
  cases hfollows : followsLead lead second with
  | false =>
    refine ⟨1,rfl,Nat.one_pos,hi,malformed_of hnone Nat.one_pos hi (fun v hv hb => ?_) (.inl rfl)⟩
    rw [hdrop] at hv
    rcases List.prefix_cons_iff.mp hv with rfl | ⟨v',rfl,hv'⟩
    · exact Nat.zero_le 1
    · rcases List.prefix_cons_iff.mp hv' with rfl | ⟨v'',rfl,-⟩
      · exact Nat.le_refl 1
      · rw [(begins_cons_iff.mp hb).1] at hfollows
        cases hfollows
  | true =>
    have hwidth : 2 ≤ leadWidth lead := by omega
    have hfits : i + 2 ≤ raw.length := hnext
    obtain ⟨taken,hrun,⟨htwo,hle,hend,htail⟩,hstop⟩ := reaches_loop hwidth hfits
    refine ⟨taken,hrun,by omega,hend,malformed_of hnone (by omega) hend (fun v hv hb => ?_) (.inr ?_)⟩
    · refine Nat.le_of_not_lt fun hlt => ?_
      have hshort := hv.length_le
      rw [List.length_drop] at hshort
      obtain ⟨t,ht⟩ := hv
      rw [hdrop] at ht
      rcases v with _ | ⟨x,_ | ⟨y,v⟩⟩
      · cases hlt
      · rw [List.length_singleton] at hlt
        omega
      · rw [List.cons_append,List.cons_append,List.cons.injEq,List.cons.injEq] at ht
        obtain ⟨rfl,rfl,ht⟩ := ht
        obtain ⟨-,hwidth,hin⟩ := begins_cons_iff.mp hb
        simp only [List.length_cons] at hlt hshort
        have hk : taken - 2 < v.length := by omega
        refine hstop (by omega) v[taken - 2] ?_ (hin _ (List.getElem_mem hk))
        have hdrop2 : raw.drop (i + 2) = v ++ t := by rw [show i + 2 = i + 1 + 1 from rfl,← hrest',← ht]
        rw [show i + taken = i + 2 + (taken - 2) by omega,← List.getElem?_drop,hdrop2,List.getElem?_append_left hk]
        exact List.getElem?_eq_getElem hk
    · rw [hdrop,show taken = taken - 2 + 1 + 1 by omega,List.take_succ_cons,List.take_succ_cons]
      refine begins_cons_iff.mpr ⟨hfollows,?_,fun x hx => htail x ?_⟩
      · rw [List.length_take]
        omega
      · rwa [show i + 2 = i + 1 + 1 from rfl,← hrest']

theorem put_next {T : Type} {built ys : List T} (value : T) (hk : k < built.length) (h : built.take k = ys) :
    ∃ built', put built k value = .ok built' ∧ built'.length = built.length ∧ built'.take (k + 1) = ys ++ [value] := by
  refine ⟨built.set k value,if_pos hk,List.length_set,?_⟩
  rw [List.take_add_one,List.take_set_of_le (Nat.le_refl k),h,List.getElem?_set_self hk]
  rfl

theorem copy_ok (hread : read + n ≤ data.length) (hbuilt : written + n ≤ built.length) :
    ∃ built', (List.range n).foldlM (fun built k => do put built (written + k) (← entry data (read + k))) built = .ok built' ∧
      built'.length = built.length ∧ built'.take (written + n) = built.take written ++ (data.drop read).take n := by
  refine foldlM_range (I := fun k (built' : List ℕ) => built'.length = built.length ∧
    built'.take (written + k) = built.take written ++ (data.drop read).take k) (fun k hk built' hb => ?_) ⟨rfl,by simp⟩
  obtain ⟨hlen,htake⟩ := hb
  have hlt : read + k < data.length := by omega
  rw [entry_ok (List.getElem?_eq_getElem hlt),ok_bind]
  obtain ⟨built'',hput,hlen',htake'⟩ := put_next data[read + k] (by omega) htake
  refine ⟨built'',hput,hlen'.trans hlen,?_⟩
  rw [← Nat.add_assoc,htake',List.take_add_one,List.getElem?_drop,List.getElem?_eq_getElem hlt,List.append_assoc]
  rfl

def Written (data : List ℕ) : List ℕ × ℕ × ℕ → Prop
  | (built,written,read) => built.length = data.length * 3 ∧ read ≤ data.length ∧ written ≤ read * 3 ∧
    ∀ out, Lossy (data.drop read) out → Lossy data (built.take written ++ out)

theorem lossyStep_keep (h : Written data (built,written,read)) (hlt : read < data.length) (hw : 0 < widthOf (data.drop read)) :
    ∃ built' width, lossyStep data (built,written,read) = .ok (.next (built',written + width,read + width)) ∧ 0 < width ∧
      Written data (built',written + width,read + width) := by
  obtain ⟨hlen,hread,hwritten,hlossy⟩ := h
  obtain ⟨c,hc,⟨rest,hrest⟩,hclen⟩ := found hw
  have hsum := congrArg List.length hrest
  rw [List.length_append,List.length_drop] at hsum
  have hfrom : read + c.length ≤ data.length := by omega
  have hinto : written + c.length ≤ built.length := by omega
  obtain ⟨built',hcopy,hlen',htake⟩ := copy_ok hfrom hinto
  refine ⟨built',c.length,?_,hc.length_pos,hlen'.trans hlen,by omega,by omega,fun out hout => ?_⟩
  · rw [lossyStep,if_pos hlt,characterWidth_eq hlt,ok_bind,if_pos hw,← hclen,hcopy]
    rfl
  · rw [htake,List.append_assoc,← hrest,List.take_left]
    refine hlossy _ ?_
    rw [← hrest]
    refine .keep hc ?_
    rwa [← List.drop_drop,← hrest,List.drop_left] at hout

theorem lossyStep_replace (h : Written data (built,written,read)) (hlt : read < data.length) (hw : widthOf (data.drop read) = 0) :
    ∃ built' width, lossyStep data (built,written,read) = .ok (.next (built',written + 3,read + width)) ∧ 0 < width ∧
      Written data (built',written + 3,read + width) := by
  obtain ⟨hlen,hread,hwritten,hlossy⟩ := h
  obtain ⟨width,hwidth,hpos,hle,hmalformed⟩ := malformedWidth_eq hlt hw
  have hinto : written < built.length := by omega
  obtain ⟨built1,hput1,hlen1,htake1⟩ := put_next 0xEF hinto rfl
  obtain ⟨built2,hput2,hlen2,htake2⟩ := put_next 0xBF (by omega) htake1
  obtain ⟨built3,hput3,hlen3,htake3⟩ := put_next 0xBD (by omega) htake2
  refine ⟨built3,width,?_,hpos,by omega,hle,by omega,fun out hout => ?_⟩
  · rw [lossyStep,if_pos hlt,characterWidth_eq hlt,ok_bind,if_neg (by omega),hput1,ok_bind,hput2,ok_bind,hput3,ok_bind,hwidth]
    rfl
  · rw [htake3,List.append_assoc,List.append_assoc,List.append_assoc]
    refine hlossy _ ?_
    rw [← List.take_append_drop width (data.drop read),List.drop_drop]
    exact .replace hmalformed hout

theorem lossy_loop (data : List ℕ) : ∃ built written,
    loop .endless (lossyStep data) (data.length + 1) (List.replicate (data.length * 3) 0,0,0) = .ok (built,written) ∧
      written ≤ built.length ∧ Lossy data (built.take written) := by
  have hloop := @loop_ok Stop _ _ .endless (lossyStep data) (data.length + 1) (List.replicate (data.length * 3) 0,0,0) (Written data)
    (fun r => r.2 ≤ r.1.length ∧ Lossy data (r.1.take r.2)) (fun s => data.length - s.2.2) (fun s hs => ?_) ⟨List.length_replicate,Nat.zero_le _,Nat.zero_le _,fun out hout => by simpa using hout⟩ (by
      dsimp only
      omega)
  · obtain ⟨⟨built,written⟩,hrun,hle,hlossy⟩ := hloop
    exact ⟨built,written,hrun,hle,hlossy⟩
  obtain ⟨built,written,read⟩ := s
  by_cases hlt : read < data.length
  · rcases Nat.eq_zero_or_pos (widthOf (data.drop read)) with hw | hw
    · obtain ⟨built',width,hstep,hpos,hs'⟩ := lossyStep_replace hs hlt hw
      exact .inr ⟨_,hstep,hs',by dsimp only; omega⟩
    · obtain ⟨built',width,hstep,hpos,hs'⟩ := lossyStep_keep hs hlt hw
      exact .inr ⟨_,hstep,hs',by dsimp only; omega⟩
  · obtain ⟨hlen,hread,hwritten,hlossy⟩ := hs
    refine .inl ⟨(built,written),by rw [lossyStep,if_neg hlt],by dsimp only; omega,?_⟩
    have hnil := hlossy [] (by rw [List.drop_eq_nil_of_le (by omega)]; exact .nil)
    rwa [List.append_nil] at hnil

/-! ### The third reader -/

/-- The characters with some codes spell some bytes. -/
def Spells (codes bs : List ℕ) : Prop := (∀ n ∈ codes, Scalar n) ∧ codes.flatMap encode = bs

def scalarOf (lead : ℕ) (rest : List ℕ) : ℕ :=
  rest.foldl (fun scalar b => scalar * 64 + (b &&& 0x3F)) (lead &&& leadMask (leadWidth lead))

theorem and_low (b : ℕ) : b &&& 0x3F = b % 64 := Nat.and_two_pow_sub_one_eq_mod b 6

/-- What the lead byte of a character with a code carries of it. -/
theorem encode_lead (h : Scalar n) : ∃ lead rest, encode n = lead :: rest ∧ leadWidth lead = rest.length + 1 ∧ scalarOf lead rest = n := by
  unfold Scalar at h
  unfold encode
  split_ifs with h1 h2 h3
  · have hw : leadWidth n = 1 := leadWidth_one.mpr h1
    refine ⟨n,[],rfl,hw,?_⟩
    have hand : n &&& 0x7F = n % 128 := Nat.and_two_pow_sub_one_eq_mod n 7
    rw [scalarOf,hw]
    show n &&& 0x7F = n
    omega
  · have hw : leadWidth (0xC0 + n / 64) = 2 := by
      have hcases := leadWidth_cases (0xC0 + n / 64)
      omega
    refine ⟨_,_,rfl,hw,?_⟩
    have hand : (0xC0 + n / 64) &&& 0x1F = (0xC0 + n / 64) % 32 := Nat.and_two_pow_sub_one_eq_mod _ 5
    rw [scalarOf,hw]
    show ((0xC0 + n / 64) &&& 0x1F) * 64 + ((0x80 + n % 64) &&& 0x3F) = n
    rw [hand,and_low]
    omega
  · have hw : leadWidth (0xE0 + n / 4096) = 3 := by
      have hcases := leadWidth_cases (0xE0 + n / 4096)
      omega
    refine ⟨_,_,rfl,hw,?_⟩
    have hand : (0xE0 + n / 4096) &&& 0x0F = (0xE0 + n / 4096) % 16 := Nat.and_two_pow_sub_one_eq_mod _ 4
    rw [scalarOf,hw]
    show (((0xE0 + n / 4096) &&& 0x0F) * 64 + ((0x80 + n / 64 % 64) &&& 0x3F)) * 64 + ((0x80 + n % 64) &&& 0x3F) = n
    rw [hand,and_low,and_low]
    omega
  · have hw : leadWidth (0xF0 + n / 262144) = 4 := by
      have hcases := leadWidth_cases (0xF0 + n / 262144)
      omega
    refine ⟨_,_,rfl,hw,?_⟩
    have hand : (0xF0 + n / 262144) &&& 0x07 = (0xF0 + n / 262144) % 8 := Nat.and_two_pow_sub_one_eq_mod _ 3
    rw [scalarOf,hw]
    show ((((0xF0 + n / 262144) &&& 0x07) * 64 + ((0x80 + n / 4096 % 64) &&& 0x3F)) * 64 + ((0x80 + n / 64 % 64) &&& 0x3F)) * 64 +
      ((0x80 + n % 64) &&& 0x3F) = n
    rw [hand,and_low,and_low,and_low]
    omega

theorem char_encode (h : Char c) : ∃ n, Scalar n ∧ encode n = c := by
  cases h with
  | @one a ha => exact ⟨a,.inl (by omega),by rw [encode,if_pos ha]⟩
  | @two a b h1 h2 hb =>
    unfold Tail at hb
    refine ⟨(a - 0xC0) * 64 + (b - 0x80),.inl (by omega),?_⟩
    rw [encode,if_neg (by omega),if_pos (by omega),List.cons_eq_cons,List.cons_eq_cons]
    exact ⟨by omega,by omega,rfl⟩
  | @three a b c hab hc =>
    unfold Three Tail at hab
    unfold Tail at hc
    refine ⟨((a - 0xE0) * 64 + (b - 0x80)) * 64 + (c - 0x80),by unfold Scalar; omega,?_⟩
    rw [encode,if_neg (by omega),if_neg (by omega),if_pos (by omega),List.cons_eq_cons,List.cons_eq_cons,List.cons_eq_cons]
    exact ⟨by omega,by omega,by omega,rfl⟩
  | @four a b c d hab hc hd =>
    unfold Four Tail at hab
    unfold Tail at hc hd
    refine ⟨(((a - 0xF0) * 64 + (b - 0x80)) * 64 + (c - 0x80)) * 64 + (d - 0x80),by unfold Scalar; omega,?_⟩
    rw [encode,if_neg (by omega),if_neg (by omega),if_neg (by omega),List.cons_eq_cons,List.cons_eq_cons,List.cons_eq_cons,
      List.cons_eq_cons]
    exact ⟨by omega,by omega,by omega,by omega,rfl⟩

theorem valid_spells (h : Valid data) : ∃ codes, Spells codes data := by
  induction h with
  | nil => exact ⟨[],fun n hn => absurd hn List.not_mem_nil,rfl⟩
  | cons hc _ ih =>
    obtain ⟨n,hn,rfl⟩ := char_encode hc
    obtain ⟨codes,hcodes,rfl⟩ := ih
    exact ⟨n :: codes,List.forall_mem_cons.mpr ⟨hn,hcodes⟩,rfl⟩

theorem next_ok {text : Text} {rest : List ℕ} (hn : Scalar n) (hdrop : text.bytes.drop i = encode n ++ rest) :
    next text i = .ok (some (n,i + (encode n).length)) := by
  obtain ⟨lead,tail,hencode,hwidth,hvalue⟩ := encode_lead hn
  rw [hencode] at hdrop ⊢
  have hbyte : ∀ k, text.bytes[i + k]? = (lead :: tail ++ rest)[k]? := fun k => by rw [← List.getElem?_drop,hdrop]
  have hlead : text.bytes[i]? = some lead := hbyte 0
  have hfold : ∃ scalar, (List.range tail.length).foldlM (fun scalar k => do
      .ok (scalar * 64 + ((← text.byteAt (i + (k + 1))) &&& 0x3F))) (lead &&& leadMask (leadWidth lead)) = .ok scalar ∧
        scalar = scalarOf lead (tail.take tail.length) := by
    refine foldlM_range (I := fun k scalar => scalar = scalarOf lead (tail.take k)) (fun k hk scalar hscalar => ?_) rfl
    have htail : text.bytes[i + (k + 1)]? = some tail[k] := by
      rw [hbyte,List.cons_append,List.getElem?_cons_succ,List.getElem?_append_left hk,List.getElem?_eq_getElem hk]
    rw [Text.byteAt_ok htail,ok_bind]
    refine ⟨_,rfl,?_⟩
    rw [hscalar,scalarOf,scalarOf,List.take_add_one,List.getElem?_eq_getElem hk,List.foldl_append]
    rfl
  obtain ⟨scalar,hrun,hscalar⟩ := hfold
  rw [List.take_length,hvalue] at hscalar
  have hlt : ¬text.length ≤ i := by
    have hlen := (List.getElem?_eq_some_iff.mp hlead).1
    exact Nat.not_le_of_lt hlen
  rw [next,if_neg hlt,Text.byteAt_ok hlead,ok_bind]
  dsimp only
  rw [hwidth,Nat.add_sub_cancel]
  rw [hwidth] at hrun
  rw [hrun,ok_bind,hscalar]
  rfl

theorem charsLoop_spells {text : Text} {codes : List ℕ} (h : Spells codes text.bytes) : ∃ r, loop Stop.endless (fun (seen,i) => do
    match ← next text i with
    | none => .ok (.done seen)
    | some (scalar,i) => .ok (.next (seen ++ [scalar],i))) (text.length + 1) (([] : List ℕ),0) = .ok r ∧ r = codes := by
  obtain ⟨hscalars,hbytes⟩ := h
  refine @loop_ok Stop _ _ .endless _ (text.length + 1) (([] : List ℕ),0)
    (fun s => ∃ left, codes = s.1 ++ left ∧ text.bytes.drop s.2 = left.flatMap encode ∧ s.2 ≤ text.length) (fun r => r = codes)
    (fun s => text.length - s.2) (fun s hs => ?_) ⟨codes,rfl,hbytes.symm,Nat.zero_le _⟩ (by dsimp only; omega)
  obtain ⟨seen,i⟩ := s
  obtain ⟨left,hsplit,hdrop,hi⟩ := hs
  dsimp only at hsplit hdrop hi ⊢
  cases left with
  | nil =>
    have hend : text.length ≤ i := List.drop_eq_nil_iff.mp hdrop
    refine .inl ⟨seen,?_,by rw [hsplit,List.append_nil]⟩
    rw [next,if_pos hend]
    rfl
  | cons n left =>
    have hn : Scalar n := hscalars n (by rw [hsplit]; exact List.mem_append_right _ List.mem_cons_self)
    rw [List.flatMap_cons] at hdrop
    have hlen := congrArg List.length hdrop
    rw [List.length_drop,List.length_append] at hlen
    have hpos := (encode_char hn).length_pos
    refine .inr ⟨(seen ++ [n],i + (encode n).length),?_,⟨left,?_,?_,?_⟩,?_⟩
    · rw [next_ok hn hdrop]
      rfl
    · rw [hsplit,List.append_assoc]
      rfl
    · rw [← List.drop_drop,hdrop,List.drop_left]
    · unfold Text.length at hi ⊢
      dsimp only
      omega
    · unfold Text.length at hi ⊢
      dsimp only
      omega

theorem chars_spells {text : Text} {codes : List ℕ} (h : Spells codes text.bytes) : chars text = .ok codes := by
  obtain ⟨r,hrun,rfl⟩ := charsLoop_spells h
  exact hrun

theorem fromBytes_exact (data : List ℕ) : (Valid data ∧ fromBytes data = .ok (.ok data)) ∨
    (¬Valid data ∧ ∃ e i, fromBytes data = .ok (.error e) ∧ e.offset = (i : ℕ) ∧ i < data.length ∧ Valid (data.take i) ∧
      ∀ c, Char c → ¬c <+: data.drop i) := by
  obtain ⟨at',hrun,⟨rfl,hv⟩ | ⟨i,rfl,hlt,htake,hnone,hnot⟩⟩ := firstInvalidUtf8_stops data
  · refine .inl ⟨hv,?_⟩
    rw [fromBytes,hrun,ok_bind,if_neg (by omega)]
  · rw [fromBytes,hrun,ok_bind,if_pos (by omega)]
    exact .inr ⟨hnot,_,i,rfl,rfl,hlt,htake,hnone⟩

theorem fromBytesLossy_exact (data : List ℕ) : ∃ out, fromBytesLossy data = .ok out ∧ Lossy data out ∧ (Valid data → out = data) := by
  obtain ⟨at',hrun,⟨rfl,hv⟩ | ⟨i,rfl,hlt,htake,hnone,hnot⟩⟩ := firstInvalidUtf8_stops data
  · refine ⟨data,?_,lossy_valid hv,fun _ => rfl⟩
    rw [fromBytesLossy,hrun,ok_bind,if_pos (by omega)]
  · obtain ⟨built,written,hloop,hle,hlossy⟩ := lossy_loop data
    refine ⟨built.take written,?_,hlossy,fun hv => absurd hv hnot⟩
    rw [fromBytesLossy,hrun,ok_bind,if_neg (by omega),hloop,ok_bind]
    exact if_pos hle

/-- The three readers agree with UTF-8: the first accepts exactly what is well formed, the second replaces exactly the malformed parts and
writes inside its array, the third gives the only numbers whose characters the text spells. -/
theorem utf8_exact (data : List ℕ) (text : Text) :
    ((Valid data ∧ fromBytes data = .ok (.ok data)) ∨
      (¬Valid data ∧ ∃ e i, fromBytes data = .ok (.error e) ∧ e.offset = (i : ℕ) ∧ i < data.length ∧ Valid (data.take i) ∧
        ∀ c, Char c → ¬c <+: data.drop i)) ∧
    (∃ out, fromBytesLossy data = .ok out ∧ Valid out ∧ Lossy data out ∧ (Valid data → out = data)) ∧
    (∃ codes, chars text = .ok codes ∧ ∀ other, Spells other text.bytes ↔ other = codes) := by
  refine ⟨fromBytes_exact data,?_,?_⟩
  · obtain ⟨out,hrun,hlossy,hsame⟩ := fromBytesLossy_exact data
    exact ⟨out,hrun,hlossy.valid,hlossy,hsame⟩
  · obtain ⟨codes,hcodes⟩ := valid_spells text.valid
    have hrun := chars_spells hcodes
    refine ⟨codes,hrun,fun other => ⟨fun hother => ?_,fun heq => heq ▸ hcodes⟩⟩
    have hother' := chars_spells hother
    rw [hrun] at hother'
    exact (Except.ok.inj hother').symm

end Ens.Decode
