import Ens.Json.Items
import Ens.Json.Strings

/-! # Arrays and objects

The loops over elements and over members read exactly what the grammar lists, by what reads a
value one level further in.
-/
set_option linter.all false
namespace Ens.Json
open Loop
variable {text : Text} {read : ℕ → Except Halt (Json × ℕ)} {inner : Reads Json}
variable {within : Bytes → Bytes → Prop} {start i j : ℕ} {s t u x y w : Bytes} {b : ℕ}

theorem Begins.not_head (h : Begins s) {c : Char} (hc : c = ']' ∨ c = '}') : s.head? ≠ some c.toNat := by
  obtain ⟨b,t,rfl,-,h1,h2⟩ := h
  intro he
  obtain rfl : b = c.toNat := Option.some.inj he
  rcases hc with rfl | rfl
  · exact h1 rfl
  · exact h2 rfl

namespace Cursor

/-! ### After an item -/

variable {closer : Char} {unclosed stray trailing : ℕ → Except Stop JsonError}

theorem separator_sound (hu : ∀ {i s}, At text i s → ∃ e, unclosed i = .ok e)
    (hs : ∀ {i b s}, At text i (b :: s) → ∃ e, stray i = .ok e)
    (ht : ∀ {i b s}, At text i (b :: s) → ∃ e, trailing i = .ok e) (hc : closer = ']' ∨ closer = '}')
    (h : At text i y) : Yields (separator text closer unclosed stray trailing i) (fun
      | (j,true) => ∃ t, Ws y (closer.toNat :: t) ∧ At text j t
      | (j,false) => ∃ w x, Ws y (','.toNat :: w) ∧ Ws w x ∧ At text j x ∧ x.length < y.length)
      (Aborts False) := by
  have h' := h.skipWhitespace
  have hw := run_dropWhile isWhitespace y
  rw [separator,atEnd_of_drop h'.left]
  cases hd : y.dropWhile isWhitespace with
  | nil => exact yields_refuse (hu h')
  | cons c z =>
    rw [hd] at h' hw
    simp only [reduceCtorEq,decide_false,Bool.false_eq_true,if_false,h'.byteAt,attempt_ok,ok_bind]
    split
    · rename_i he
      subst he
      exact ⟨z,hw,h'.next (by rcases hc with rfl | rfl <;> decide)⟩
    split
    · exact yields_refuse (hs h')
    · rename_i he
      obtain rfl : c = ','.toNat := not_not.mp he
      have hz := (h'.next (by decide)).skipWhitespace
      rw [hz.sees]
      split
      · rename_i hb
        cases hz' : z.dropWhile isWhitespace with
        | nil => simp [hz'] at hb
        | cons b z' => exact yields_refuse (ht (hz' ▸ hz))
      · refine ⟨z,_,hw,run_dropWhile isWhitespace z,hz,?_⟩
        have h1 := (run_dropWhile isWhitespace z).length_le
        have h2 := hw.length_le
        rw [List.length_cons] at h2
        omega

theorem separator_closer (hc : closer = ']' ∨ closer = '}') (h : At text i y)
    (hy : Ws y (closer.toNat :: t)) :
    ∃ j, separator text closer unclosed stray trailing i = .ok (j,true) ∧ At text j t := by
  have h' := h.ws hy (starts_cons (by rcases hc with rfl | rfl <;> decide))
  refine ⟨_,?_,h'.next (by rcases hc with rfl | rfl <;> decide)⟩
  rw [separator,atEnd_of_drop h'.left]
  simp only [reduceCtorEq,decide_false,Bool.false_eq_true,if_false,h'.byteAt,attempt_ok,ok_bind,if_true]

theorem separator_comma (hc : closer = ']' ∨ closer = '}') (h : At text i y) (hy : Ws y (','.toNat :: w))
    (hw : Ws w x) (hx : Begins x) :
    ∃ j, separator text closer unclosed stray trailing i = .ok (j,false) ∧ At text j x ∧ x.length < y.length := by
  have h' := h.ws hy (starts_cons (by decide))
  have hn := (h'.next (by decide)).ws hw hx.starts
  refine ⟨_,?_,hn,?_⟩
  · rw [separator,atEnd_of_drop h'.left]
    simp only [reduceCtorEq,decide_false,Bool.false_eq_true,if_false,h'.byteAt,attempt_ok,ok_bind]
    rw [if_neg (by rcases hc with rfl | rfl <;> decide),if_neg (by simp),hn.sees,if_neg]
    simpa using hx.not_head hc
  · have h1 := hw.length_le
    have h2 := hy.length_le
    rw [List.length_cons] at h2
    omega

/-! ### Elements -/

/-- What the loop over elements has read. -/
def ElementsRead (text : Text) (vs : List Json) (x : Bytes) (st : List Json × ℕ) : Prop :=
  st.1 = vs ∧ At text st.2 x

theorem elements_start (h : At text i x) : ElementsRead text [] x ([],i) := ⟨rfl,h⟩

theorem elements_loop (hi : start ≤ text.length) (hr : ReadsItem text read inner within) :
    ItemLoop text (arrayRound text read start) inner within ']'.toNat (fun _ => True) .array
      (ElementsRead text) where
  sound := by
    rintro vs x ⟨_,i⟩ ⟨rfl,hx⟩
    simp only [arrayRound,atEnd_of_drop hx.left]
    cases x with
    | nil => exact yields_refuse (endsInside_ok _ _ hi hx.le)
    | cons a x =>
      rw [if_neg (by simp)]
      refine Yields.bind ((hr.sound hx (List.cons_ne_nil _ _)).mono (fun _ => id)
        fun _ => Aborts.mono fun h => ⟨trivial,h⟩) fun r ⟨y,hv,hy⟩ => ?_
      refine Yields.bind ((separator_sound (fun h => endsInside_ok _ _ hi h.le) (found_ok _) (found_ok _)
        (.inl rfl) hy).mono (fun _ => id) fun _ => Aborts.mono False.elim) fun r' h => ?_
      obtain ⟨j,_ | _⟩ := r'
      · obtain ⟨w,x',hyw,hw,hx',hlt'⟩ := h
        exact ⟨_,y,w,x',hv,hyw,hw,⟨rfl,hx'⟩,by have := hr.shrinks hv; omega⟩
      · obtain ⟨t,hyt,ht⟩ := h
        exact ⟨_,y,t,hv,hyt,trivial,rfl,ht⟩
  next := by
    rintro vs v x y w x' ⟨_,i⟩ ⟨rfl,hx⟩ hv hy hw hb -
    obtain ⟨j,hj,hat⟩ := hr.complete hx hv (hy.follow (by decide))
    obtain ⟨k,hk,hat',hlt'⟩ := separator_comma (.inl rfl) hat hy hw hb
    refine ⟨(_,k),?_,⟨rfl,hat'⟩,by have := hr.shrinks hv; omega⟩
    simp only [arrayRound,atEnd_of_drop hx.left]
    rw [if_neg (by simpa using (hr.begins hv).ne_nil),hj,ok_bind]
    dsimp only
    rw [hk]
    rfl
  done := by
    rintro vs v x y t ⟨_,i⟩ ⟨rfl,hx⟩ hv hy -
    obtain ⟨j,hj,hat⟩ := hr.complete hx hv (hy.follow (by decide))
    obtain ⟨k,hk,hat'⟩ := separator_closer (.inl rfl) hat hy
    refine ⟨k,?_,hat'⟩
    simp only [arrayRound,atEnd_of_drop hx.left]
    rw [if_neg (by simpa using (hr.begins hv).ne_nil),hj,ok_bind]
    dsimp only
    rw [hk]
    rfl
  aborts := by
    rintro vs x ⟨_,i⟩ ⟨rfl,hx⟩ hs
    simp only [arrayRound,atEnd_of_drop hx.left]
    rw [if_neg (by simpa using hs.ne_nil hr.leads),hr.aborts hx hs,error_bind]
  begins := hr.begins
  leads := hr.leads
  init := fun _ => trivial

/-! ### Members -/

theorem member_key {v : Text} (h : At text i ('"'.toNat :: s)) (hq : quoted text i = .ok (v,start)) :
    member text read j i = (let k := skipWhitespace text start
      if atEnd text k then refuse (Cursor.unclosed text (utf8 "object") j (utf8 "\x7d") k)
      else do
        let current ← attempt (text.byteAt k)
        if current ≠ ':'.toNat then
          refuse (found text (utf8 " after the key '" ++ v.bytes ++ utf8 "'. Write ':' between a key and its value") k)
        else
          let k := skipWhitespace text (k + 1)
          if atEnd text k then refuse (Cursor.unclosed text (utf8 "object") j (utf8 "\x7d") k)
          else do
            let (value,k) ← read k
            .ok ((v,value),k)) := by
  rw [member,h.byteAt,attempt_ok,ok_bind,if_neg (by simp),hq,ok_bind]

theorem member_sound (hi : start ≤ text.length) (hr : ReadsItem text read inner within) (h : At text i s)
    (hs : s ≠ []) : Yields (member text read start i)
      (fun r => ∃ t, Member inner s r.1 t ∧ At text r.2 t) (Aborts (Strays (WithinMember within) s)) := by
  cases s with
  | nil => exact absurd rfl hs
  | cons b s =>
    by_cases hb : b = '"'.toNat
    swap
    · rw [member,h.byteAt,attempt_ok,ok_bind,if_pos hb]
      exact yields_refuse (found_ok _ h)
    subst hb
    have hquoted := quoted_sound h
    cases hq : quoted text i with
    | error e =>
      rw [hq] at hquoted
      rw [member,h.byteAt,attempt_ok,ok_bind,if_neg (by simp),hq,error_bind]
      exact Aborts.mono (fun ⟨d,b,t,hb,h80⟩ => ⟨b,t,.key hb,h80⟩) hquoted
    | ok r =>
      obtain ⟨v,j⟩ := r
      rw [hq] at hquoted
      obtain ⟨u,hu,hj⟩ := hquoted
      rw [member_key h hq]
      have hk := hj.skipWhitespace
      have hw := run_dropWhile isWhitespace u
      dsimp only
      rw [atEnd_of_drop hk.left]
      cases hd : u.dropWhile isWhitespace with
      | nil => exact yields_refuse (endsInside_ok _ _ hi hk.le)
      | cons c z =>
        rw [hd] at hk hw
        simp only [reduceCtorEq,decide_false,Bool.false_eq_true,if_false,hk.byteAt,attempt_ok,ok_bind]
        split
        · exact yields_refuse (found_ok _ hk)
        · rename_i hc
          obtain rfl : c = ':'.toNat := not_not.mp hc
          have hz := (hk.next (by decide)).skipWhitespace
          have hzw := run_dropWhile isWhitespace z
          rw [atEnd_of_drop hz.left]
          cases hdz : z.dropWhile isWhitespace with
          | nil => exact yields_refuse (endsInside_ok _ _ hi hz.le)
          | cons c x =>
            rw [hdz] at hz hzw
            simp only [reduceCtorEq,decide_false,Bool.false_eq_true,if_false]
            refine Yields.bind ((hr.sound hz (List.cons_ne_nil _ _)).mono (fun _ => id) fun _ => Aborts.mono
              fun ⟨b,t,hi,h80⟩ => ⟨b,t,.value hu hw hzw hi,h80⟩) fun r ⟨t,hv,ht⟩ => ?_
            exact ⟨t,.mk hu hw hzw hv,ht⟩

variable (read start) in
/-- A member whose key and colon are read is read as its value is. -/
theorem member_value {v : Text} (h : At text i s) (hq : Quoted s v u) (hu : Ws u (':'.toNat :: w))
    (hw : Ws w x) (hx : Begins x) : ∃ k, At text k x ∧
      member text read start i = (read k >>= fun r => .ok ((v,r.1),r.2)) := by
  obtain ⟨j,hj,hat⟩ := quoted_complete h hq
  cases hq with
  | mk hb =>
    have hk := hat.ws hu (starts_cons (by decide))
    have hz := (hk.next (by decide)).ws hw hx.starts
    refine ⟨_,hz,?_⟩
    rw [member_key h hj]
    dsimp only
    rw [atEnd_of_drop hk.left]
    simp only [reduceCtorEq,decide_false,Bool.false_eq_true,if_false,hk.byteAt,attempt_ok,ok_bind,ne_eq,
      not_true_eq_false]
    rw [atEnd_of_drop hz.left,if_neg (by simpa using hx.ne_nil)]

theorem quoted_begins {v : Text} (h : Quoted s v t) : Begins s := by
  cases h with
  | mk _ => exact ⟨_,_,rfl,by decide,by decide,by decide⟩

theorem member_reads (hi : start ≤ text.length) (hr : ReadsItem text read inner within) :
    ReadsItem text (member text read start) (Member inner) (WithinMember within) where
  sound := member_sound hi hr
  complete := by
    intro i s t m h hm ht
    cases hm with
    | mk hq hu hw hv =>
      obtain ⟨k,hk,heq⟩ := member_value read start h hq hu hw (hr.begins hv)
      obtain ⟨j,hj,hat⟩ := hr.complete hk hv ht
      exact ⟨j,by rw [heq,hj,ok_bind],hat⟩
  aborts := by
    rintro i s h ⟨b,t,hm,h80⟩
    cases hm with
    | key hb =>
      rw [member,h.byteAt,attempt_ok,ok_bind,if_neg (by simp),quoted_aborts h hb h80,error_bind]
    | value hq hu hw hv =>
      obtain ⟨k,hk,heq⟩ := member_value read start h hq hu hw (hr.leads hv)
      rw [heq,hr.aborts hk ⟨b,t,hv,h80⟩,error_bind]
  begins := by
    intro s t m h
    cases h with
    | mk hq _ _ _ => exact quoted_begins hq
  leads := by
    intro s t h
    cases h with
    | key _ => exact ⟨_,_,rfl,by decide,by decide,by decide⟩
    | value hq _ _ _ => exact quoted_begins hq
  shrinks := by
    intro s t m h
    cases h with
    | mk hq hu hw hv =>
      have := hq.length_le
      have := hu.length_le
      have := hw.length_le
      have := hr.shrinks hv
      simp only [List.length_cons] at *
      omega

structure MembersRead (text : Text) (allowDuplicateKeys : Bool) (ms : List (Text × Json)) (x : Bytes)
    (st : Members × List (Text × ℕ) × ℕ) : Prop where
  members : st.1 = Members.ofList ms
  left : At text st.2.2 x
  distinct : Distinct allowDuplicateKeys ms
  keys : allowDuplicateKeys = false → ∀ k, k ∈ st.2.1.map Prod.fst ↔ k ∈ ms.map Prod.fst
  within : ∀ e ∈ st.2.1, e.2 ≤ text.length

variable {allow : Bool} {ms : List (Text × Json)} {seen : List (Text × ℕ)} {key : Text} {v : Json}
variable {st : Members × List (Text × ℕ) × ℕ}

theorem members_start (h : At text i x) : MembersRead text allow [] x ([],[],i) where
  members := rfl
  left := h
  distinct := .inr List.nodup_nil
  keys := fun _ _ => Iff.rfl
  within := fun _ he => (nomatch he)

theorem lookup_eq_none : seen.lookup key = none ↔ key ∉ seen.map Prod.fst := by
  rw [List.lookup_eq_none_iff,List.mem_map]
  constructor
  · rintro h ⟨e,he,rfl⟩
    simpa using h e he
  · exact fun h e he => bne_iff_ne.mpr fun hk => h ⟨e,he,hk.symm⟩

theorem distinct_concat : Distinct allow (ms ++ [(key,v)]) ↔
    Distinct allow ms ∧ (allow = true ∨ key ∉ ms.map Prod.fst) := by
  unfold Distinct
  rw [List.map_append,List.map_singleton,List.nodup_append]
  cases allow with
  | true => simp
  | false => simp; grind

variable (key v) in
/-- A key that is not there yet is added, and one that is there is refused. -/
theorem seeKey_sound (hm : MembersRead text allow ms x st) (hi : st.2.2 ≤ text.length) :
    Yields (seeKey text allow st.2.1 key st.2.2) (fun seen' => Distinct allow (ms ++ [(key,v)]) ∧
      (allow = false → ∀ k, k ∈ seen'.map Prod.fst ↔ k ∈ (ms ++ [(key,v)]).map Prod.fst) ∧
      ∀ e ∈ seen', e.2 ≤ text.length) (Aborts False) := by
  unfold seeKey
  cases allow with
  | true => exact ⟨.inl rfl,fun h => (nomatch h),hm.within⟩
  | false =>
    rw [if_neg Bool.false_ne_true]
    cases hl : st.2.1.lookup key with
    | some earlier =>
      refine yields_refuse ?_
      obtain ⟨l,l',hseen,-⟩ := List.lookup_eq_some_iff.mp hl
      obtain ⟨w,hw⟩ := where_ok (hm.within (key,earlier) (by simp [hseen]))
      obtain ⟨w',hw'⟩ := where_ok hi
      rw [repeatedKey,hw,ok_bind,hw',ok_bind]
      exact failure_ok _ hi
    | none =>
      have hnot := fun h => lookup_eq_none.mp hl ((hm.keys rfl key).mpr h)
      refine ⟨distinct_concat.mpr ⟨hm.distinct,.inr hnot⟩,fun _ k => ?_,?_⟩
      · have := hm.keys rfl k
        simp only [List.map_cons,List.mem_cons,List.map_append,List.mem_append,List.map_nil,List.not_mem_nil,
          or_false]
        rw [this]
        exact or_comm
      · rintro e (_ | ⟨_,he⟩)
        · exact hi
        · exact hm.within e he

theorem seeKey_complete (hm : MembersRead text allow ms x st) (hd : Distinct allow (ms ++ [(key,v)])) :
    ∃ seen', seeKey text allow st.2.1 key st.2.2 = .ok seen' := by
  unfold seeKey
  cases allow with
  | true => exact ⟨_,rfl⟩
  | false =>
    have hnot := (distinct_concat.mp hd).2.resolve_left (by simp)
    rw [if_neg Bool.false_ne_true,lookup_eq_none.mpr fun h => hnot ((hm.keys rfl key).mp h)]
    exact ⟨_,rfl⟩

variable (allow) in
theorem members_loop (hi : start ≤ text.length) (hr : ReadsItem text read inner within) :
    ItemLoop text (objectRound text read allow start) (Member inner) (WithinMember within) '}'.toNat
      (Distinct allow) (fun ms => .object (Members.ofList ms)) (MembersRead text allow) where
  sound := by
    rintro ms x ⟨members,seen,i⟩ hm
    have hx := hm.left
    simp only [objectRound,atEnd_of_drop hx.left]
    cases x with
    | nil => exact yields_refuse (endsInside_ok _ _ hi hx.le)
    | cons a x =>
      rw [if_neg (by simp)]
      refine Yields.bind (((member_reads hi hr).sound hx (List.cons_ne_nil _ _)).mono (fun _ => id)
        fun _ => Aborts.mono fun h => ⟨hm.distinct,h⟩) fun r ⟨y,hv,hy⟩ => ?_
      obtain ⟨⟨key,v⟩,j⟩ := r
      refine Yields.bind ((seeKey_sound key v hm hx.le).mono (fun _ => id)
        fun _ => Aborts.mono False.elim) fun seen' ⟨hd,hkeys,hwithin⟩ => ?_
      refine Yields.bind ((separator_sound (fun h => endsInside_ok _ _ hi h.le) (found_ok _) (found_ok _)
        (.inr rfl) hy).mono (fun _ => id) fun _ => Aborts.mono False.elim) fun r' h => ?_
      have hset : Members.set members key v = Members.ofList (ms ++ [(key,v)]) :=
        (congrArg (Members.set · key v) hm.members).trans (Members.ofList_concat ms (key,v)).symm
      obtain ⟨k,_ | _⟩ := r'
      · obtain ⟨w,x',hyw,hw,hx',hlt'⟩ := h
        exact ⟨_,y,w,x',hv,hyw,hw,⟨hset,hx',hd,hkeys,hwithin⟩,by have := (member_reads hi hr).shrinks hv; omega⟩
      · obtain ⟨t,hyt,ht⟩ := h
        exact ⟨_,y,t,hv,hyt,hd,congrArg Json.object hset,ht⟩
  next := by
    rintro ms ⟨key,v⟩ x y w x' ⟨members,seen,i⟩ hm hv hy hw hb hd
    have hx := hm.left
    obtain ⟨j,hj,hat⟩ := (member_reads hi hr).complete hx hv (hy.follow (by decide))
    obtain ⟨k,hk,hat',hlt'⟩ := separator_comma (.inr rfl) hat hy hw hb
    obtain ⟨seen',hseen⟩ := seeKey_complete hm hd
    have hkeys := seeKey_sound key v hm hx.le
    rw [hseen] at hkeys
    refine ⟨(members.set key v,seen',k),?_,⟨?_,hat',hd,hkeys.2.1,hkeys.2.2⟩,by have := (member_reads hi hr).shrinks hv; omega⟩
    · simp only [objectRound,atEnd_of_drop hx.left]
      rw [if_neg (by simpa using ((member_reads hi hr).begins hv).ne_nil),hj,ok_bind]
      dsimp only at hseen ⊢
      rw [hseen,ok_bind,hk]
      rfl
    · exact (congrArg (Members.set · key v) hm.members).trans (Members.ofList_concat ms (key,v)).symm
  done := by
    rintro ms ⟨key,v⟩ x y t ⟨members,seen,i⟩ hm hv hy hd
    have hx := hm.left
    obtain ⟨j,hj,hat⟩ := (member_reads hi hr).complete hx hv (hy.follow (by decide))
    obtain ⟨k,hk,hat'⟩ := separator_closer (.inr rfl) hat hy
    obtain ⟨seen',hseen⟩ := seeKey_complete hm hd
    refine ⟨k,?_,hat'⟩
    simp only [objectRound,atEnd_of_drop hx.left]
    rw [if_neg (by simpa using ((member_reads hi hr).begins hv).ne_nil),hj,ok_bind]
    dsimp only at hseen ⊢
    rw [hseen,ok_bind,hk]
    exact congrArg (fun m => Except.ok (Flow.done (Json.object m,k)))
      ((congrArg (Members.set · key v) hm.members).trans (Members.ofList_concat ms (key,v)).symm)
  aborts := by
    rintro ms x ⟨members,seen,i⟩ hm hs
    have hx := hm.left
    simp only [objectRound,atEnd_of_drop hx.left]
    rw [if_neg (by simpa using hs.ne_nil (member_reads hi hr).leads),(member_reads hi hr).aborts hx hs,
      error_bind]
  begins := (member_reads hi hr).begins
  leads := (member_reads hi hr).leads
  init := by
    intro ms ms' h
    refine h.imp_right fun h => ?_
    rw [List.map_append] at h
    exact (List.nodup_append.mp h).1

end Cursor
end Ens.Json
