import Ens.Lex.Characters

/-! # No character literal aborts its own refusal

Inside a literal whose backslashes each start a whole escape, every read is of a byte that is
there and every cut at a place where a character begins.
-/
namespace Ens.Lex
open Loop Utf8

inductive Content : List ℕ → Prop
  | nil : Content []
  | plain {b : ℕ} {bs : List ℕ} : b ≠ '\\'.toNat → Content bs → Content (b :: bs)
  | simple {e : ℕ} {bs : List ℕ} : isSimpleEscape e = true → Content bs →
      Content ('\\'.toNat :: e :: bs)
  | unicode {p q r s : ℕ} {bs : List ℕ} : isHexDigit p = true → isHexDigit q = true →
      isHexDigit r = true → isHexDigit s = true → Content bs →
      Content ('\\'.toNat :: 'u'.toNat :: p :: q :: r :: s :: bs)

variable {bs cs : List ℕ} {t : Text} {i b : ℕ}

theorem Content.append (h : Content bs) (h' : Content cs) : Content (bs ++ cs) := by
  induction h with
  | nil => exact h'
  | plain hb _ ih => exact .plain hb ih
  | simple he _ ih => exact .simple he ih
  | unicode hp hq hr hs _ ih => exact .unicode hp hq hr hs ih

theorem Content.drop_plain (h : Content (bs ++ cs)) (hb : ∀ b ∈ bs, b ≠ '\\'.toNat) : Content cs := by
  induction bs with
  | nil => exact h
  | cons a bs ih =>
    have ha := hb a (List.mem_cons_self ..)
    rw [List.cons_append] at h
    generalize hl : bs ++ cs = l at h
    cases h with
    | plain _ h => exact ih (hl ▸ h) fun b hm => hb b (List.mem_cons_of_mem _ hm)
    | simple _ _ => exact absurd rfl ha
    | unicode _ _ _ _ _ => exact absurd rfl ha

theorem isHexDigit_ascii (h : isHexDigit b = true) : b < 0x80 := by
  simp [isHexDigit,isDigit] at h; omega

theorem isSimpleEscape_ascii (h : isSimpleEscape b = true) : b < 0x80 ∧ b ≠ 'u'.toNat := by
  simp [isSimpleEscape] at h
  simp only [Char.reduceToNat]
  omega

theorem isContinuationByte_iff : isContinuationByte b = true ↔ Tail b := by
  simp [isContinuationByte,Tail]

theorem utf8SequenceLength_char {a : ℕ} (h : Utf8.Char (a :: bs)) :
    utf8SequenceLength a = (a :: bs).length := by
  unfold utf8SequenceLength
  cases h with
  | one ha => simp [ha]
  | two h1 h2 _ => rw [if_neg (by omega),if_neg (by omega),if_neg (by omega),if_pos (by omega)]; rfl
  | three h1 _ =>
    unfold Three at h1
    rw [if_neg (by omega),if_neg (by omega),if_pos (by omega)]; rfl
  | four h1 _ _ =>
    unfold Four at h1
    rw [if_neg (by omega),if_pos (by omega)]; rfl

theorem utf8SequenceLength_pos (a : ℕ) : 0 < utf8SequenceLength a := by
  unfold utf8SequenceLength; split <;> (try split) <;> (try split) <;> (try split) <;> omega

theorem escapeLength_eq (t : Text) (i : ℕ) : escapeLength t i = 2 ∨ escapeLength t i = 6 := by
  unfold escapeLength
  split
  · split <;> simp
  · simp

theorem escapeLength_pos (t : Text) (i : ℕ) : 2 ≤ escapeLength t i := by
  rcases escapeLength_eq t i with h | h <;> omega

theorem escapeLength_simple (h : t.bytes.drop i = '\\'.toNat :: b :: bs) (hb : isSimpleEscape b = true) :
    escapeLength t i = 2 := by
  have hd : t.bytes.drop (i + 1) = b :: bs := by
    rw [← List.drop_drop,h]; rfl
  unfold escapeLength
  rw [hd]
  split
  · rename_i he
    rw [if_neg]
    rintro ⟨hu,-⟩
    exact (isSimpleEscape_ascii hb).2 ((List.cons.inj he).1.trans hu)
  · rfl

theorem escapeLength_unicode {p q r s : ℕ}
    (h : t.bytes.drop i = '\\'.toNat :: 'u'.toNat :: p :: q :: r :: s :: bs)
    (hp : isHexDigit p = true) (hq : isHexDigit q = true) (hr : isHexDigit r = true)
    (hs : isHexDigit s = true) : escapeLength t i = 6 := by
  have hd : t.bytes.drop (i + 1) = 'u'.toNat :: p :: q :: r :: s :: bs := by
    rw [← List.drop_drop,h]; rfl
  unfold escapeLength
  rw [hd]
  exact if_pos ⟨rfl,hp,hq,hr,hs⟩

/-! ### The parts of a refusal -/

theorem characterLiteralLength_ok (literal : Text) :
    ∃ n, characterLiteralLength literal = .ok n ∧ (n ≠ 0 → 2 < literal.length) := by
  refine loop_ok (I := fun s => 1 ≤ s.1 ∧ (s.2 ≠ 0 → 2 < literal.length))
    (fun s => literal.length - s.1) ?_ (by simp) (by omega)
  rintro ⟨index,count⟩ ⟨hpos,hI⟩
  by_cases hlt : index < literal.length - 1
  · obtain ⟨c,hc⟩ := Text.exists_byte (t := literal) (i := index) (by omega)
    have hesc := escapeLength_pos literal index
    right
    simp only [hlt,if_true,Text.byteAt_ok hc,ok_bind]
    split
    · exact ⟨_,rfl,⟨by dsimp only at hpos ⊢; omega,fun _ => by dsimp only at hpos; omega⟩,by dsimp only; omega⟩
    · split
      · exact ⟨_,rfl,⟨by dsimp only at hpos ⊢; omega,hI⟩,by dsimp only; omega⟩
      · exact ⟨_,rfl,⟨by dsimp only at hpos ⊢; omega,fun _ => by dsimp only at hpos; omega⟩,by dsimp only; omega⟩
  · exact Or.inl ⟨count,by simp [hlt],hI⟩

theorem byte_of_drop {k : ℕ} (h : t.bytes.drop i = bs) : t.bytes[i + k]? = bs[k]? := by
  rw [← h,List.getElem?_drop]

theorem drop_more {k : ℕ} (h : t.bytes.drop i = bs) : t.bytes.drop (i + k) = bs.drop k := by
  rw [← h,List.drop_drop]

/-- At the start of a character of a content its bytes are all there, and a backslash has the
escape it starts. -/
theorem characterBytes_ok (hv : Content (t.bytes.drop i)) (hi : Boundary t.bytes i) (hlt : i < t.length) :
    ∃ n, characterBytes t i = .ok n ∧ 0 < n ∧ Boundary t.bytes (i + n) ∧
      Content (t.bytes.drop (i + n)) ∧ ∃ p, codePointAt t i n = .ok p := by
  generalize hd : t.bytes.drop i = l at hv
  have hbyte := fun k => byte_of_drop (k := k) hd
  have hdrop := fun k => drop_more (k := k) hd
  cases hv with
  | nil =>
    have := List.drop_eq_nil_iff.mp hd
    exact absurd hlt (Nat.not_lt.mpr this)
  | @plain b bs hb hv =>
    have hb0 : t.bytes[i]? = some b := hbyte 0
    obtain ⟨w,hw,⟨rest,hrest⟩,hn⟩ := t.valid.next hi hlt
    obtain ⟨a,r,rfl,-,hr⟩ := hw.shape
    rw [hd,List.cons_append] at hrest
    obtain ⟨rfl,rfl⟩ := List.cons.inj hrest
    have hlen := utf8SequenceLength_char hw
    have hle : i + (a :: r).length ≤ t.length := hn.1
    refine ⟨(a :: r).length,?_,hw.length_pos,hn,?_,?_⟩
    · simp only [characterBytes,Text.byteAt_ok hb0,ok_bind,hb,if_false,hlen,Nat.not_lt.mpr hle]
    · rw [hdrop,List.length_cons,List.drop_succ_cons,List.drop_left]
      exact hv.drop_plain fun b hb => by
        have := (hr b hb).1
        simp only [Char.reduceToNat]; omega
    · simp only [codePointAt,Text.byteAt_ok hb0,ok_bind,hb,if_false,false_and]
      split
      · exact ⟨_,rfl⟩
      · refine foldlM_ok (fun k hk v => ?_) _
        rw [List.mem_range'_1] at hk
        obtain ⟨c,hc⟩ := Text.exists_byte (t := t) (i := k) (by omega)
        rw [Text.byteAt_ok hc]
        exact ⟨_,rfl⟩
  | @simple e bs he hv =>
    have hb0 : t.bytes[i]? = some '\\'.toNat := hbyte 0
    have hb1 : t.bytes[i + 1]? = some e := hbyte 1
    refine ⟨2,?_,by omega,t.valid.boundary_succ hb1 (isSimpleEscape_ascii he).1,by rw [hdrop]; exact hv,e,?_⟩
    · simp only [characterBytes,Text.byteAt_ok hb0,ok_bind,if_true,escapeLength_simple hd he]
    · simp [codePointAt,Text.byteAt_ok hb0,Text.byteAt_ok hb1]
  | @unicode p q r s bs hp hq hr hs hv =>
    have hb0 : t.bytes[i]? = some '\\'.toNat := hbyte 0
    have hb5 : t.bytes[i + 5]? = some s := hbyte 5
    refine ⟨6,?_,by omega,t.valid.boundary_succ hb5 (isHexDigit_ascii hs),by rw [hdrop]; exact hv,?_⟩
    · simp only [characterBytes,Text.byteAt_ok hb0,ok_bind,if_true,escapeLength_unicode hd hp hq hr hs]
    · simp only [codePointAt,Text.byteAt_ok hb0,ok_bind,and_self,if_true]
      refine foldlM_ok (fun k hk v => ?_) _
      simp only [List.mem_cons,List.not_mem_nil,or_false] at hk
      have hlen : i + 5 < t.bytes.length := (List.getElem?_eq_some_iff.mp hb5).1
      obtain ⟨c,hc⟩ := Text.exists_byte (t := t) (i := k) (show k < t.bytes.length by omega)
      rw [Text.byteAt_ok hc]
      exact ⟨_,rfl⟩

theorem hasJoiningMark_ok {content : Text} (hc : Content content.bytes) :
    ∃ joined, hasJoiningMark content = .ok joined := by
  refine loop_ends (I := fun s => s.1 ≤ content.length ∧ Content (content.bytes.drop s.1))
    (fun s => content.length - s.1) ?_ ⟨Nat.zero_le _,by simpa using hc⟩ (by simp)
  rintro ⟨index,first⟩ ⟨hle,hI⟩
  dsimp only at hle hI
  by_cases hlt : index < content.length
  · obtain ⟨b,hb⟩ := Text.exists_byte hlt
    simp only [hlt,if_true,Text.byteAt_ok hb,ok_bind]
    by_cases ht : isContinuationByte b = true
    · refine Or.inr ⟨(index + 1,first),by rw [if_pos ht],⟨hlt,?_⟩,by dsimp only; omega⟩
      obtain ⟨hi,hget⟩ := List.getElem?_eq_some_iff.mp hb
      rw [List.drop_eq_getElem_cons hi,hget] at hI
      have hge := (isContinuationByte_iff.mp ht).1
      have hI : Content ([b] ++ content.bytes.drop (index + 1)) := hI
      refine hI.drop_plain fun b' hb' => ?_
      rw [List.mem_singleton.mp hb']
      simp only [Char.reduceToNat]; omega
    · have hbd : Boundary content.bytes index := ⟨hle,fun b' hb' hT => ht (by
        rw [hb] at hb'; cases hb'; exact isContinuationByte_iff.mpr hT)⟩
      obtain ⟨n,hn,hpos,hbn,hcn,p,hp⟩ := characterBytes_ok hI hbd hlt
      simp only [ht,Bool.false_eq_true,if_false,hn,hp,ok_bind]
      have hnext : (index + n ≤ content.length ∧ Content (content.bytes.drop (index + n))) ∧
          content.length - (index + n) < content.length - index := ⟨⟨hbn.1,hcn⟩,by omega⟩
      by_cases hf : first = true
      · exact Or.inr ⟨_,by rw [if_pos hf],hnext.1,hnext.2⟩
      · rw [if_neg hf]
        by_cases hj : joinsPrevious p = true
        · exact Or.inl ⟨true,by rw [if_pos hj]⟩
        · exact Or.inr ⟨_,by rw [if_neg hj],hnext.1,hnext.2⟩
  · exact Or.inl ⟨false,by simp [hlt]⟩

theorem stringContent_ok (content : Text) : ∃ written, stringContent content = .ok written := by
  refine loop_ends (I := fun s : List ℕ × ℕ × ℕ => Boundary content.bytes s.2.1 ∧ s.2.1 ≤ s.2.2)
    (fun s => content.length - s.2.2) ?_ ⟨boundary_zero content.valid,Nat.le_refl 0⟩ (by simp)
  rintro ⟨written,runStart,index⟩ ⟨hb,hle⟩
  dsimp only at hb hle
  by_cases hlt : index < content.length
  · obtain ⟨c,hc⟩ := Text.exists_byte hlt
    have hesc := escapeLength_pos content index
    simp only [hlt,if_true,Text.byteAt_ok hc,ok_bind]
    right
    split
    · exact ⟨_,rfl,⟨hb,by dsimp only; omega⟩,by dsimp only; omega⟩
    · split
      · rename_i hquote
        have hascii : c < 0x80 := by simp only [Char.reduceToNat] at hquote; omega
        have hbi := boundary_of_ascii hc hascii
        obtain ⟨run,hrun,-⟩ := Text.substring_ok hb hbi hle
        rw [hrun]
        exact ⟨_,rfl,⟨hbi,by dsimp only; omega⟩,by dsimp only; omega⟩
      · exact ⟨_,rfl,⟨hb,by dsimp only; omega⟩,by dsimp only; omega⟩
  · obtain ⟨run,hrun,-⟩ := Text.substring_ok hb (boundary_length content.bytes) hb.1
    have hrun : content.substring runStart content.length = .ok run := hrun
    exact Or.inl ⟨written ++ run.bytes,by simp only [hlt,if_false,hrun,ok_bind]⟩

theorem firstCharacter_ok {content : Text} (hc : Content content.bytes) (hpos : 0 < content.length) :
    ∃ first, firstCharacter content = .ok first := by
  obtain ⟨n,hn,-,hb,-⟩ := characterBytes_ok (i := 0) (by simpa using hc) (boundary_zero content.valid) hpos
  obtain ⟨u,hu,-⟩ := Text.substring_ok (boundary_zero content.valid) hb (Nat.zero_le _)
  rw [Nat.zero_add] at hu
  exact ⟨u,by rw [firstCharacter,hn,ok_bind,hu]⟩

/-- A literal between two quotes whose backslashes each start a whole escape is refused with a
message. -/
theorem characterLengthRefusal_ok {literal : Text} (h : literal.bytes = '\''.toNat :: (bs ++ ['\''.toNat]))
    (hc : Content bs) : ∃ message, characterLengthRefusal literal = .ok message := by
  obtain ⟨count,hcount,hpos⟩ := characterLiteralLength_ok literal
  have hlen : literal.length = bs.length + 2 := by simp [Text.length,h]
  have hquote : ('\''.toNat : ℕ) < 0x80 := by decide
  have h1 : Boundary literal.bytes 1 := literal.valid.boundary_succ (i := 0) (by rw [h]; rfl) hquote
  have h2 : Boundary literal.bytes (literal.length - 1) :=
    boundary_of_ascii (b := '\''.toNat) (by rw [hlen,h]; simp) hquote
  obtain ⟨content,hsub,hbytes⟩ := Text.substring_ok h1 h2 (by omega)
  have hcontent : content.bytes = bs := by rw [hbytes,hlen,h]; simp
  obtain ⟨string,hs⟩ := stringContent_ok content
  obtain ⟨joined,hj⟩ := hasJoiningMark_ok (show Content content.bytes from hcontent.symm ▸ hc)
  simp only [characterLengthRefusal,hcount,hsub,ok_bind,hs,hj]
  split
  · exact ⟨_,rfl⟩
  · rename_i hne
    have hp := hpos hne
    obtain ⟨first,hf⟩ := firstCharacter_ok (show Content content.bytes from hcontent.symm ▸ hc)
      (by rw [Text.length,hcontent]; omega)
    split
    · exact ⟨_,rfl⟩
    · rw [hf]; exact ⟨_,rfl⟩

end Ens.Lex
