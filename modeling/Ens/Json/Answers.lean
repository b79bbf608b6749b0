import Ens.Json.Nesting

/-! # Reading a text never aborts but at a stray escape

A value reads its elements and members one level further in, down to the level that is refused.
So a text is read to a value or to an error, unless a string in it comes to a backslash that a
character beyond ASCII follows.
-/
set_option linter.all false
namespace Ens.Json
open Loop
variable {text : Text} {read : ℕ → Except Halt (Json × ℕ)} {inner : Reads Json}
variable {within : Bytes → Bytes → Prop} {i : ℕ} {s t : Bytes} {b : ℕ} {allow : Bool} {v : Json}

/-! ### How values begin -/

theorem utf8_null : utf8 "null" = 'n'.toNat :: utf8 "ull" := by decide

theorem utf8_true : utf8 "true" = 't'.toNat :: utf8 "rue" := by decide

theorem utf8_false : utf8 "false" = 'f'.toNat :: utf8 "alse" := by decide

theorem number_head (h : Number s t) : ∃ b u, s = b :: u ∧ (b = '-'.toNat ∨ isDigit b = true) := by
  obtain ⟨hm,hw,-,-⟩ := h
  obtain ⟨c,u,rfl,hc⟩ := Cursor.whole_head hw
  cases hm with
  | absent => exact ⟨c,u,rfl,.inr hc⟩
  | present => exact ⟨_,_,rfl,.inl rfl⟩

theorem digit_begins (hb : isDigit b = true) : Begins (b :: s) := by
  refine ⟨b,s,rfl,?_⟩
  simp only [isDigit,Bool.and_eq_true,decide_eq_true_eq,Char.reduceToNat] at hb
  simp only [isWhitespace,Bool.or_eq_false_iff,decide_eq_false_iff_not,Char.reduceToNat]
  omega

theorem shape_begins (h : Shape allow inner s v t) : Begins s := by
  cases h with
  | null => rw [utf8_null]; exact ⟨_,_,rfl,by decide⟩
  | true => rw [utf8_true]; exact ⟨_,_,rfl,by decide⟩
  | false => rw [utf8_false]; exact ⟨_,_,rfl,by decide⟩
  | number hn =>
    obtain ⟨b,u,hs,hb⟩ := number_head hn
    rw [hs]
    rcases hb with rfl | hb
    · exact ⟨_,_,rfl,by decide⟩
    · exact digit_begins hb
  | string hq => exact Cursor.quoted_begins hq
  | emptyArray _ | array _ _ _ _ | emptyObject _ | object _ _ _ _ _ => exact ⟨_,_,rfl,by decide⟩

theorem within_begins (h : Within allow inner within s t) : Begins s := by
  cases h with
  | string _ | element _ _ _ | member _ _ _ _ => exact ⟨_,_,rfl,by decide⟩

theorem shape_length_le (hi : ∀ {s t : Bytes} {v : Json}, inner s v t → t.length ≤ s.length)
    (h : Shape allow inner s v t) : t.length ≤ s.length := by
  have hm {s t : Bytes} {m : Text × Json} (h : Member inner s m t) : t.length ≤ s.length := by
    cases h with
    | mk hq hu hw hv =>
      have := hq.length_le
      have := hu.length_le
      have := hw.length_le
      have := hi hv
      simp only [List.length_cons] at *
      omega
  cases h with
  | null | true | false => simp
  | number hn => exact hn.length_le
  | string hq => exact hq.length_le
  | emptyArray hw | emptyObject hw => exact Nat.le_succ_of_le (Nat.le_trans (Nat.le_succ _) hw.length_le)
  | array hw hl hv hy =>
    have := hw.length_le
    have := hl.length_le hi
    have := hi hv
    have := hy.length_le
    simp only [List.length_cons] at *
    omega
  | object hw hl hv hy _ =>
    have := hw.length_le
    have := hl.length_le hm
    have := hm hv
    have := hy.length_le
    simp only [List.length_cons] at *
    omega

namespace Cursor

/-! ### Arrays and objects -/

theorem array_sound (hr : ReadsItem text read inner within) (h : At text i ('['.toNat :: s)) :
    Yields (array text read i) (fun r => ∃ t, Shape allow inner ('['.toNat :: s) r.1 t ∧ At text r.2 t)
      (Aborts (Strays (Within allow inner within) ('['.toNat :: s))) := by
  have h' := (h.next (by decide)).skipWhitespace
  have hw := run_dropWhile isWhitespace s
  rw [array,h'.sees]
  split
  · rename_i hc
    cases hd : s.dropWhile isWhitespace with
    | nil => simp [hd] at hc
    | cons c u =>
      rw [hd] at h' hw hc
      obtain rfl : c = ']'.toNat := by simpa using hc
      exact ⟨u,.emptyArray hw,h'.next (by decide)⟩
  · refine ((elements_loop h.le hr).loop_sound .nil (elements_start h') ?_).mono ?_ fun _ => Aborts.mono ?_
    · rw [← h'.left,List.length_drop]
      exact Nat.lt_succ_of_le (Nat.sub_le _ _)
    · rintro ⟨v,j⟩ ⟨vs,v',x,y,t,hl,hv,hy,-,rfl,ht⟩
      exact ⟨t,.array hw hl hv hy,ht⟩
    · rintro ⟨vs,x,hl,-,b,t,hi,hb⟩
      exact ⟨b,t,.element hw hl hi,hb⟩

theorem object_sound (hr : ReadsItem text read inner within) (h : At text i ('{'.toNat :: s)) :
    Yields (object text read allow i) (fun r => ∃ t, Shape allow inner ('{'.toNat :: s) r.1 t ∧ At text r.2 t)
      (Aborts (Strays (Within allow inner within) ('{'.toNat :: s))) := by
  have h' := (h.next (by decide)).skipWhitespace
  have hw := run_dropWhile isWhitespace s
  rw [object,h'.sees]
  split
  · rename_i hc
    cases hd : s.dropWhile isWhitespace with
    | nil => simp [hd] at hc
    | cons c u =>
      rw [hd] at h' hw hc
      obtain rfl : c = '}'.toNat := by simpa using hc
      exact ⟨u,.emptyObject hw,h'.next (by decide)⟩
  · refine ((members_loop allow h.le hr).loop_sound .nil (members_start h') ?_).mono ?_ fun _ => Aborts.mono ?_
    · rw [← h'.left,List.length_drop]
      exact Nat.lt_succ_of_le (Nat.sub_le _ _)
    · rintro ⟨v,j⟩ ⟨ms,m,x,y,t,hl,hm,hy,hd,rfl,ht⟩
      exact ⟨t,.object hw hl hm hy hd,ht⟩
    · rintro ⟨ms,x,hl,hd,b,t,hi,hb⟩
      exact ⟨b,t,.member hw hl hd hi,hb⟩

theorem array_empty (h : At text i ('['.toNat :: s)) (hw : Ws s (']'.toNat :: t)) :
    ∃ j, array text read i = .ok (.array [],j) ∧ At text j t := by
  have h' := (h.next (by decide)).ws hw (starts_cons (by decide))
  exact ⟨_,by rw [array,h'.sees,if_pos (by simp)],h'.next (by decide)⟩

theorem object_empty (h : At text i ('{'.toNat :: s)) (hw : Ws s ('}'.toNat :: t)) :
    ∃ j, object text read allow i = .ok (.object [],j) ∧ At text j t := by
  have h' := (h.next (by decide)).ws hw (starts_cons (by decide))
  exact ⟨_,by rw [object,h'.sees,if_pos (by simp)],h'.next (by decide)⟩

variable (read) in
theorem array_loop {u : Bytes} (h : At text i ('['.toNat :: s)) (hw : Ws s u) (hu : Begins u) :
    ∃ k, At text k u ∧ u.length < text.length + 1 ∧
      array text read i = loop (.stop .endless) (arrayRound text read i) (text.length + 1) ([],k) := by
  have h' := (h.next (by decide)).ws hw hu.starts
  refine ⟨_,h',?_,?_⟩
  · rw [← h'.left,List.length_drop]
    exact Nat.lt_succ_of_le (Nat.sub_le _ _)
  · rw [array,h'.sees,if_neg (by simpa using hu.not_head (.inl rfl))]

variable (read allow) in
theorem object_loop {u : Bytes} (h : At text i ('{'.toNat :: s)) (hw : Ws s u) (hu : Begins u) :
    ∃ k, At text k u ∧ u.length < text.length + 1 ∧
      object text read allow i = loop (.stop .endless) (objectRound text read allow i) (text.length + 1) ([],[],k) := by
  have h' := (h.next (by decide)).ws hw hu.starts
  refine ⟨_,h',?_,?_⟩
  · rw [← h'.left,List.length_drop]
    exact Nat.lt_succ_of_le (Nat.sub_le _ _)
  · rw [object,h'.sees,if_neg (by simpa using hu.not_head (.inr rfl))]

theorem listed_begins {A : Type} {item : Reads A} {vs : List A} {u x : Bytes}
    (hitem : ∀ {s t : Bytes} {a : A}, item s a t → Begins s) (h : Listed item u vs x) (hx : Begins x) : Begins u := by
  cases h with
  | nil => exact hx
  | cons hv => exact hitem hv

/-! ### One level -/

theorem dispatch_array (h : At text i ('['.toNat :: s)) : dispatch text read allow i = array text read i := by
  rw [dispatch,h.byteAt,attempt_ok,ok_bind,if_neg (by decide),if_pos rfl]

theorem dispatch_object (h : At text i ('{'.toNat :: s)) :
    dispatch text read allow i = object text read allow i := by
  rw [dispatch,h.byteAt,attempt_ok,ok_bind,if_pos rfl]

theorem dispatch_string (h : At text i ('"'.toNat :: s)) :
    dispatch text read allow i = (quoted text i >>= fun r => .ok (.string r.1,r.2)) := by
  rw [dispatch,h.byteAt,attempt_ok,ok_bind,if_neg (by decide),if_neg (by decide),if_pos rfl]

theorem dispatch_number (h : At text i (b :: s)) (hb : b = '-'.toNat ∨ isDigit b = true) :
    dispatch text read allow i = number text i := by
  have hne (c : Char) (h1 : isDigit c.toNat = false) (h2 : c ≠ '-') : b ≠ c.toNat := by
    rintro rfl
    rcases hb with hb | hb
    · exact h2 (Char.toNat_inj.mp hb)
    · rw [h1] at hb; cases hb
  rw [dispatch,h.byteAt,attempt_ok,ok_bind,if_neg (hne _ (by decide) (by decide)),
    if_neg (hne _ (by decide) (by decide)),if_neg (hne _ (by decide) (by decide)),
    if_neg (hne _ (by decide) (by decide)),if_neg (hne _ (by decide) (by decide)),
    if_neg (hne _ (by decide) (by decide)),if_pos hb]

theorem dispatch_sound (hr : ReadsItem text read inner within) (h : At text i s) (hs : s ≠ []) :
    Yields (dispatch text read allow i) (fun r => ∃ t, Shape allow inner s r.1 t ∧ At text r.2 t)
      (Aborts (Strays (Within allow inner within) s)) := by
  have hmono {A : Type} {m : Except Halt A} {Q : A → Prop} (hm : Yields m Q (Aborts False)) :
      Yields m Q (Aborts (Strays (Within allow inner within) s)) :=
    hm.mono (fun _ => id) fun _ => Aborts.mono False.elim
  have hliteral {w : Bytes} {v : Json} (hw : ∀ {t}, Shape allow inner (w ++ t) v t) :
      Yields (literal text w v i) (fun r => ∃ t, Shape allow inner s r.1 t ∧ At text r.2 t)
        (Aborts (Strays (Within allow inner within) s)) := by
    cases s with
    | nil => exact absurd rfl hs
    | cons b s =>
      refine hmono ((literal_sound h).mono (fun r hr => ?_) fun _ => id)
      obtain ⟨rfl,t,hst,ht⟩ := hr
      exact ⟨t,hst ▸ hw,ht⟩
  cases s with
  | nil => exact absurd rfl hs
  | cons b s =>
    rw [dispatch,h.byteAt,attempt_ok,ok_bind]
    split
    · rename_i hb
      subst hb
      exact object_sound hr h
    split
    · rename_i hb
      subst hb
      exact array_sound hr h
    split
    · rename_i hb
      subst hb
      refine Yields.bind ((quoted_sound h).mono (fun _ => id) fun _ => Aborts.mono ?_) fun r ⟨t,hq,ht⟩ => ?_
      · exact fun ⟨d,b,t,hb,h80⟩ => ⟨b,t,.string hb,h80⟩
      · exact ⟨t,.string hq,ht⟩
    split
    · exact hliteral .true
    split
    · exact hliteral .false
    split
    · exact hliteral .null
    split
    · rename_i hb
      refine hmono ((number_sound h hb).mono (fun r hr => ?_) fun _ => id)
      obtain ⟨v,j⟩ := r
      obtain ⟨n,t,rfl,hs,hn,ht⟩ := hr
      exact ⟨t,hs ▸ .number (hs ▸ hn),ht⟩
    · exact yields_refuse (unexpectedValue_ok h)

theorem dispatch_complete (hr : ReadsItem text read inner within) (h : At text i s)
    (hv : Shape allow inner s v t) (ht : Starts (isFollow · = true) t) :
    ∃ j, dispatch text read allow i = .ok (v,j) ∧ At text j t := by
  have hliteral {w r : Bytes} {c : Char} {v : Json} (hw : w = c.toNat :: r) (hword : ∀ b ∈ w, isWordByte b = true)
      (h : At text i (w ++ t)) (hd : dispatch text read allow i = literal text w v i) :
      ∃ j, dispatch text read allow i = .ok (v,j) ∧ At text j t := by
    obtain ⟨hl,hj⟩ := literal_complete (v := v) h hword ht
    exact ⟨_,by rw [hd,hl],hj⟩
  cases hv with
  | null =>
    refine hliteral utf8_null (by decide) h ?_
    rw [utf8_null] at h
    rw [dispatch,h.byteAt,attempt_ok,ok_bind]
    rfl
  | true =>
    refine hliteral utf8_true (by decide) h ?_
    rw [utf8_true] at h
    rw [dispatch,h.byteAt,attempt_ok,ok_bind]
    rfl
  | false =>
    refine hliteral utf8_false (by decide) h ?_
    rw [utf8_false] at h
    rw [dispatch,h.byteAt,attempt_ok,ok_bind]
    rfl
  | number hn =>
    obtain ⟨b,u,hs,hb⟩ := number_head hn
    obtain ⟨j,hj,hat⟩ := number_complete h hn ht
    rw [hs] at h
    exact ⟨j,by rw [dispatch_number h hb,hj],hat⟩
  | string hq =>
    obtain ⟨j,hj,hat⟩ := quoted_complete h hq
    cases hq with
    | mk _ => exact ⟨j,by rw [dispatch_string h,hj,ok_bind],hat⟩
  | emptyArray hw =>
    rw [dispatch_array h]
    exact array_empty h hw
  | emptyObject hw =>
    rw [dispatch_object h]
    exact object_empty h hw
  | array hw hl hv hy =>
    obtain ⟨k,hk,hlt,heq⟩ := array_loop read h hw (listed_begins hr.begins hl (hr.begins hv))
    obtain ⟨j,hj,hat⟩ := (elements_loop h.le hr).loop_complete hl hv hy trivial (elements_start hk) hlt
    exact ⟨j,by rw [dispatch_array h,heq,hj],hat⟩
  | object hw hl hm hy hd =>
    have hmr := member_reads h.le hr
    obtain ⟨k,hk,hlt,heq⟩ := object_loop read allow h hw
      (listed_begins hmr.begins hl (hmr.begins hm))
    obtain ⟨j,hj,hat⟩ := (members_loop allow h.le hr).loop_complete hl hm hy hd (members_start hk) hlt
    exact ⟨j,by rw [dispatch_object h,heq,hj],hat⟩

theorem dispatch_aborts (hr : ReadsItem text read inner within) (h : At text i s)
    (hs : Strays (Within allow inner within) s) : dispatch text read allow i = .error (.stop .abort) := by
  obtain ⟨b,t,hi,hb⟩ := hs
  cases hi with
  | string hbody => rw [dispatch_string h,quoted_aborts h hbody hb,error_bind]
  | element hw hl hin =>
    obtain ⟨k,hk,hlt,heq⟩ := array_loop read h hw (listed_begins hr.begins hl (hr.leads hin))
    rw [dispatch_array h,heq]
    exact (elements_loop h.le hr).loop_aborts hl trivial ⟨b,t,hin,hb⟩ (elements_start hk) hlt
  | member hw hl hd hin =>
    have hmr := member_reads h.le hr
    obtain ⟨k,hk,hlt,heq⟩ := object_loop read allow h hw
      (listed_begins hmr.begins hl (hmr.leads hin))
    rw [dispatch_object h,heq]
    exact (members_loop allow h.le hr).loop_aborts hl hd ⟨b,t,hin,hb⟩ (members_start hk) hlt

theorem dispatch_reads (hr : ReadsItem text read inner within) :
    ReadsItem text (dispatch text read allow) (Shape allow inner) (Within allow inner within) where
  sound := dispatch_sound hr
  complete := dispatch_complete hr
  aborts := dispatch_aborts hr
  begins := shape_begins
  leads := within_begins
  shrinks := shape_length_le hr.shrinks

theorem value_reads {n depth : ℕ} (h : depth + n = levels) :
    ReadsItem text (value text allow (n + 1) depth) (Value allow n) (Inside allow n) := by
  induction n generalizing depth with
  | zero =>
    have hd : Limits.depth < depth := by unfold levels at h; omega
    refine ⟨fun {i s} hi _ => ?_,fun _ h => h.elim,fun _ ⟨_,_,h,_⟩ => h.elim,fun h => h.elim,fun h => h.elim,
      fun h => h.elim⟩
    rw [value,if_pos hd]
    refine yields_refuse ?_
    obtain ⟨w,hw⟩ := where_ok hi.le
    rw [hw,ok_bind]
    exact failure_ok _ hi.le
  | succ n ih =>
    have hd : ¬Limits.depth < depth := by unfold levels at h; omega
    have hr := ih (show depth + 1 + n = levels by omega)
    have heq : value text allow (n + 1 + 1) depth = dispatch text (value text allow (n + 1) (depth + 1)) allow := by
      funext i
      rw [value,if_neg hd]
    rw [heq]
    exact dispatch_reads hr

end Cursor

/-! ### Whole texts -/

theorem afterMark_cons (h : ¬∃ u, s = 0xEF :: 0xBB :: 0xBF :: u) : afterMark s = s := by
  unfold afterMark
  split
  · exact absurd ⟨_,rfl⟩ h
  · rfl

theorem at_mark (text : Text) : At text (Cursor.skipByteOrderMark text) (afterMark text.bytes) := by
  have h0 : At text 0 text.bytes := ⟨Utf8.boundary_zero text.valid,rfl⟩
  unfold Cursor.skipByteOrderMark
  split
  · rename_i hm
    obtain ⟨u,hu⟩ : ∃ u, text.bytes = 0xEF :: 0xBB :: 0xBF :: u := by
      cases hb : text.bytes with
      | nil => simp [hb] at hm
      | cons a l =>
        cases l with
        | nil => simp [hb] at hm
        | cons b l =>
          cases l with
          | nil => simp [hb] at hm
          | cons c u => exact ⟨u,by simpa [hb] using hm⟩
    rw [hu] at h0
    obtain ⟨t,ht⟩ := h0.character (by decide)
    rw [hu]
    have hleft : text.bytes.drop 3 = u := by rw [hu]; rfl
    exact ⟨ht.boundary,hleft⟩
  · rename_i hm
    rw [afterMark_cons]
    · exact h0
    · rintro ⟨u,hu⟩
      exact hm (by simp [hu])

/-- Reading ends with a value or with an error. -/
def Answers (r : Except Halt Json) : Prop := (∃ v, r = .ok v) ∨ ∃ e, r = .error (.throws e)

theorem answers_refuse {m : Except Stop JsonError} (h : ∃ e, m = .ok e) : Answers (refuse m) := by
  obtain ⟨e,rfl⟩ := h
  exact .inr ⟨e,rfl⟩

/-- The reader answers for every text but those with a stray escape, which it aborts on. -/
theorem parse_answers (text : Text) (allowDuplicateKeys : Bool) :
    Answers (parse text allowDuplicateKeys) ↔ ¬StrayEscape text allowDuplicateKeys := by
  have hr : ReadsItem text (Cursor.value text allowDuplicateKeys (levels + 1) 0) (Value allowDuplicateKeys levels)
      (Inside allowDuplicateKeys levels) := Cursor.value_reads (Nat.zero_add _)
  have hm := at_mark text
  have h := hm.skipWhitespace
  have hw := run_dropWhile isWhitespace (afterMark text.bytes)
  have hstray : StrayEscape text allowDuplicateKeys ↔
      Strays (Inside allowDuplicateKeys levels) ((afterMark text.bytes).dropWhile isWhitespace) := by
    refine ⟨fun ⟨s,hs,b,t,hi,hb⟩ => ?_,fun h => ⟨_,hw,h⟩⟩
    rw [hs.dropWhile_eq (hr.leads hi).starts]
    exact ⟨b,t,hi,hb⟩
  rw [hstray,parse]
  dsimp only
  rw [atEnd_of_drop h.left]
  cases hs : (afterMark text.bytes).dropWhile isWhitespace with
  | nil =>
    rw [if_pos (by simp)]
    refine iff_of_true ?_ fun hn => hn.ne_nil hr.leads rfl
    split <;> exact answers_refuse (Cursor.failure_ok _ (Nat.zero_le _))
  | cons b s =>
    rw [hs] at h
    rw [if_neg (by simp)]
    constructor
    · rintro ha hn
      rw [show Limits.depth + 2 = levels + 1 from rfl,hr.aborts h hn,error_bind] at ha
      rcases ha with ⟨v,hv⟩ | ⟨e,he⟩ <;> simp at *
    · intro hn
      have hsound := hr.sound h (List.cons_ne_nil _ _)
      rw [show Limits.depth + 2 = levels + 1 from rfl]
      cases hv : Cursor.value text allowDuplicateKeys (levels + 1) 0
          (Cursor.skipWhitespace text (Cursor.skipByteOrderMark text)) with
      | error e =>
        rw [hv] at hsound
        rw [error_bind]
        cases e with
        | throws e => exact .inr ⟨e,rfl⟩
        | stop stop =>
          cases stop with
          | abort => exact absurd hsound hn
          | endless => exact hsound.elim
      | ok r =>
        rw [hv] at hsound
        obtain ⟨t,-,ht⟩ := hsound
        have ht' := ht.skipWhitespace
        simp only [ok_bind]
        rw [atEnd_of_drop ht'.left]
        cases hd : t.dropWhile isWhitespace with
        | nil => exact .inl ⟨r.1,by rw [if_pos (by simp)]⟩
        | cons c u =>
          rw [if_neg (by simp)]
          exact answers_refuse (Cursor.found_ok _ (hd ▸ ht'))

def strayText : Text where
  bytes := utf8 "\"\\é\""
  valid := .cons (.one (by decide : '"'.toNat < 0x80)) (.cons (.one (by decide : '\\'.toNat < 0x80))
    (.cons (.two (a := 0xC3) (b := 0xA9) (by decide) (by decide) (by decide))
      (.cons (.one (by decide : '"'.toNat < 0x80)) .nil)))

/-- The message about the escape cuts the é after its first byte. -/
theorem parse_answers_stray : ¬Answers (parse strayText false) := by
  have h : parse strayText false = .error (.stop .abort) := rfl
  rintro (⟨v,hv⟩ | ⟨e,he⟩)
  · rw [h] at hv; cases hv
  · rw [h] at he; cases he

end Ens.Json
