import Ens.Json.Answers
import Mathlib.Data.List.Induction

/-! # Reading a text gives the value its grammar denotes

A text is read to a value exactly where it is a JSON text, and to the value the grammar gives it.
A key that is there more than once has its last value in its first place.
-/
namespace Ens.Json
open Loop
variable {text : Text} {allow : Bool} {s t u : Bytes} {v : Json} {key : Text} {value : Json}
variable {members : List (Text × Json)}

/-- A whole text that is a JSON value between whitespace, after an optional byte order mark. -/
def JsonText (allowDuplicateKeys : Bool) (s : Bytes) (v : Json) : Prop :=
  ∃ u t, Ws (afterMark s) u ∧ Value allowDuplicateKeys levels u v t ∧ Ws t []

namespace Members

def firsts (keys : List Text) : List Text := keys.foldl (fun seen key => if key ∈ seen then seen else seen ++ [key]) []

def last (members : List (Text × Json)) (key : Text) : Option Json := members.reverse.lookup key

theorem firsts_concat (keys : List Text) (key : Text) :
    firsts (keys ++ [key]) = if key ∈ firsts keys then firsts keys else firsts keys ++ [key] := by
  rw [firsts,List.foldl_append]
  rfl

theorem lookup_cons (m : Text × Json) (o : List (Text × Json)) (k : Text) :
    (m :: o).lookup k = if k = m.1 then some m.2 else o.lookup k := by
  rw [List.lookup_cons]
  by_cases h : k = m.1
  · rw [if_pos h,beq_iff_eq.mpr h]
  · rw [if_neg h,beq_false_of_ne h]

theorem last_concat (members : List (Text × Json)) (m : Text × Json) (key : Text) :
    last (members ++ [m]) key = if key = m.1 then some m.2 else last members key := by
  rw [last,List.reverse_append,List.reverse_singleton,List.singleton_append,lookup_cons]
  rfl

theorem contains_eq (o : Members) (key : Text) : o.contains key = decide (key ∈ o.map Prod.fst) := by
  rw [Bool.eq_iff_iff,decide_eq_true_iff]
  simp [contains]

theorem set_keys (o : Members) (key : Text) (value : Json) : (o.set key value).map Prod.fst =
    if key ∈ o.map Prod.fst then o.map Prod.fst else o.map Prod.fst ++ [key] := by
  rw [set,contains_eq]
  by_cases h : key ∈ o.map Prod.fst
  · rw [if_pos (decide_eq_true h),if_pos h,List.map_map]
    apply List.map_congr_left
    intro m _
    by_cases hm : m.1 = key <;> simp [hm]
  · rw [if_neg (by simpa using h),if_neg h,List.map_append]
    rfl

theorem lookup_map_set (o : Members) (key k : Text) (value : Json) (h : key ∈ o.map Prod.fst) :
    (o.map fun m => if m.1 = key then (key,value) else m).lookup k = if k = key then some value else o.lookup k := by
  induction o with
  | nil => cases h
  | cons m o ih =>
    rw [List.map_cons,lookup_cons,lookup_cons]
    by_cases ho : key ∈ o.map Prod.fst
    · rw [ih ho]
      by_cases hm : m.1 = key
      · by_cases hk : k = key <;> simp [hm,hk]
      · by_cases hk : k = key <;> simp [hm,Ne.symm hm,hk]
    · -- The member set is the first one, and the rest stays as it is.
      have hm : m.1 = key := by simpa [ho,eq_comm] using h
      have hrest : (o.map fun m => if m.1 = key then (key,value) else m) = o := by
        conv_rhs => rw [← List.map_id o]
        apply List.map_congr_left
        intro m' hm'
        rw [if_neg fun he : m'.1 = key => ho (he ▸ List.mem_map_of_mem hm'),id]
      rw [hrest,if_pos hm]
      by_cases hk : k = key <;> simp [hm,hk]

theorem lookup_set (o : Members) (key k : Text) (value : Json) :
    (o.set key value).lookup k = if k = key then some value else o.lookup k := by
  rw [set,contains_eq]
  by_cases h : key ∈ o.map Prod.fst
  · rw [if_pos (decide_eq_true h),lookup_map_set _ _ _ _ h]
  · rw [if_neg (by simpa using h),List.lookup_append]
    by_cases hk : k = key
    · have hnone : o.lookup key = none := by
        rw [List.lookup_eq_none_iff]
        intro m hm
        exact bne_iff_ne.mpr fun he : key = m.1 => h (he ▸ List.mem_map_of_mem hm)
      rw [hk,hnone,lookup_cons,if_pos rfl,if_pos rfl]
      rfl
    · rw [if_neg hk,lookup_cons,if_neg hk]
      exact Option.or_none

/-- Members that were set one after another: every key once, in the place it was set first and
with the value it was set to last. -/
theorem ofList_spec (members : List (Text × Json)) :
    (ofList members).map Prod.fst = firsts (members.map Prod.fst) ∧ ∀ k, (ofList members).lookup k = last members k := by
  induction members using List.reverseRecOn with
  | nil => exact ⟨rfl,fun _ => rfl⟩
  | append_singleton members m ih =>
    obtain ⟨hkeys,hvalues⟩ := ih
    rw [ofList_concat]
    constructor
    · rw [set_keys,hkeys,List.map_append,List.map_singleton,firsts_concat]
    · intro k
      rw [lookup_set,hvalues,last_concat]

end Members

theorem run_follow (h : Ws t []) : Starts (isFollow · = true) t := by
  obtain ⟨w,rfl,hw⟩ := h
  intro b hb
  rw [List.append_nil] at hb
  simp only [isFollow,hw b (List.mem_of_mem_head? hb),Bool.true_or]

theorem parse_complete (h : JsonText allow text.bytes v) : parse text allow = .ok v := by
  obtain ⟨u,t,hu,hv,ht⟩ := h
  have hr : ReadsItem text (Cursor.value text allow (levels + 1) 0) (Value allow levels) (Inside allow levels) :=
    Cursor.value_reads (Nat.zero_add _)
  have hat := (at_mark text).ws hu (hr.begins hv).starts
  obtain ⟨j,hj,hjt⟩ := hr.complete hat hv (run_follow ht)
  have hend := hjt.ws ht fun _ hb => nomatch hb
  rw [parse]
  dsimp only
  rw [atEnd_of_drop hat.left,if_neg (by simpa using (hr.begins hv).ne_nil),show Limits.depth + 2 = levels + 1 from rfl,hj,ok_bind]
  dsimp only
  rw [atEnd_of_drop hend.left,if_pos (by simp)]

theorem parse_sound (h : parse text allow = .ok v) : JsonText allow text.bytes v := by
  have hr : ReadsItem text (Cursor.value text allow (levels + 1) 0) (Value allow levels) (Inside allow levels) :=
    Cursor.value_reads (Nat.zero_add _)
  have hat := (at_mark text).skipWhitespace
  rw [parse] at h
  dsimp only at h
  rw [atEnd_of_drop hat.left] at h
  by_cases hnil : (afterMark text.bytes).dropWhile isWhitespace = []
  · rw [if_pos (decide_eq_true hnil)] at h
    have h0 : 0 ≤ text.length := Nat.zero_le _
    obtain ⟨e,he⟩ := Cursor.failure_ok (utf8 "the text is empty, so it holds no JSON value") h0
    obtain ⟨e',he'⟩ := Cursor.failure_ok (utf8 "the text holds only whitespace and no JSON value") h0
    rw [he,he'] at h
    split at h <;> cases h
  · rw [if_neg (by simpa using hnil),show Limits.depth + 2 = levels + 1 from rfl] at h
    have hsound := hr.sound hat hnil
    cases hv : Cursor.value text allow (levels + 1) 0
        (Cursor.skipWhitespace text (Cursor.skipByteOrderMark text)) with
    | error e => rw [hv,error_bind] at h; cases h
    | ok r =>
      rw [hv] at hsound
      obtain ⟨t,hval,ht⟩ := hsound
      have ht' := ht.skipWhitespace
      rw [hv,ok_bind] at h
      rw [atEnd_of_drop ht'.left] at h
      by_cases hd : t.dropWhile isWhitespace = []
      · rw [if_pos (decide_eq_true hd)] at h
        cases h
        exact ⟨_,t,run_dropWhile _ _,hval,hd ▸ run_dropWhile isWhitespace t⟩
      · obtain ⟨c,w,hc⟩ := List.exists_cons_of_ne_nil hd
        obtain ⟨e,he⟩ := Cursor.found_ok (utf8 " after the value ended. A JSON text holds exactly one value") (hc ▸ ht')
        rw [if_neg (by simpa using hd),he] at h
        cases h

/-- The reader accepts the JSON texts and gives what they denote, where an object has every key
once, in its first place and with its last value. -/
theorem parse_denotes (text : Text) (allowDuplicateKeys : Bool) (v : Json) :
    (parse text allowDuplicateKeys = .ok v ↔ JsonText allowDuplicateKeys text.bytes v) ∧
      ∀ members : List (Text × Json), (Members.ofList members).map Prod.fst = Members.firsts (members.map Prod.fst) ∧
        ∀ key, (Members.ofList members).lookup key = Members.last members key :=
  ⟨⟨parse_sound,parse_complete⟩,Members.ofList_spec⟩

end Ens.Json
