import Ens.Logic.Loop
import Mathlib.Data.List.Count
import Mathlib.Data.Nat.Notation

/-! # Lines and columns

A source keeps the offsets where its lines start. The line of an offset is found by bisection, and it is the line a reader would count: one more
than the newlines before the offset, at one more than the bytes since the last of them.
-/
set_option linter.all false
namespace Ens.Lines
open Loop

def newline : ℕ := 10

structure LineIndex where
  lineStarts : List ℕ

structure LinePosition where
  line : ℕ
  column : ℕ
  deriving DecidableEq

def countLine (bytes : List ℕ) (lines i : ℕ) : Except Unit ℕ :=
  match bytes[i]? with
  | none => .error ()
  | some byte => .ok (if byte = newline then lines + 1 else lines)

def fillLine (bytes : List ℕ) (s : List ℕ × ℕ) (i : ℕ) : Except Unit (List ℕ × ℕ) :=
  match bytes[i]? with
  | none => .error ()
  | some byte =>
    if byte = newline then
      if s.2 < s.1.length then .ok (s.1.set s.2 (i + 1),s.2 + 1) else .error ()
    else .ok s

/-- One start for each line, counted first. An index outside the bytes or the starts ends the program. -/
def LineIndex.new (bytes : List ℕ) : Except Unit LineIndex := do
  let lines ← (List.range bytes.length).foldlM (countLine bytes) 1
  let s ← (List.range bytes.length).foldlM (fillLine bytes) (List.replicate lines 0,1)
  return ⟨s.1⟩

def lineIndexOf (index : LineIndex) (offset : ℕ) : Except Unit ℕ :=
  loop () (fun (s : ℕ × ℕ) =>
    if s.1 < s.2 then
      let middle := (s.1 + s.2 + 1) / 2
      match index.lineStarts[middle]? with
      | none => .error ()
      | some start => .ok (.next (if start ≤ offset then (middle,s.2) else (s.1,middle - 1)))
    else .ok (.done s.1)) index.lineStarts.length (0,index.lineStarts.length - 1)

def positionAt (index : LineIndex) (offset : ℕ) : Except Unit LinePosition := do
  let line ← lineIndexOf index offset
  match index.lineStarts[line]? with
  | none => .error ()
  | some start => .ok ⟨line + 1,offset - start + 1⟩

variable {bytes starts : List ℕ} {i k n next offset start : ℕ} {index : LineIndex}

/-! ### The line starts -/

structure StartsLine (bytes : List ℕ) (start k : ℕ) : Prop where
  count : (bytes.take start).count newline = k
  after : start = 0 ∨ ∃ before, bytes.take start = before ++ [newline]

structure Filled (bytes : List ℕ) (n : ℕ) (starts : List ℕ) (next : ℕ) : Prop where
  length : starts.length = bytes.count newline + 1
  next_eq : next = (bytes.take n).count newline + 1
  lines : ∀ k start, k < next → starts[k]? = some start → StartsLine bytes start k
  all : ∀ i < n, bytes[i]? = some newline → starts[(bytes.take (i + 1)).count newline]? = some (i + 1)
  first : starts[0]? = some 0

theorem take_succ {byte : ℕ} (h : bytes[i]? = some byte) : bytes.take (i + 1) = bytes.take i ++ [byte] := by
  rw [List.take_add_one,h]
  rfl

theorem count_take_succ {byte : ℕ} (h : bytes[i]? = some byte) :
    (bytes.take (i + 1)).count newline = (bytes.take i).count newline + if byte = newline then 1 else 0 := by
  rw [take_succ h,List.count_append,List.count_singleton]
  simp only [beq_iff_eq]

theorem count_take_le (bytes : List ℕ) (hik : i ≤ k) : (bytes.take i).count newline ≤ (bytes.take k).count newline :=
  (List.take_sublist_take_left hik).count_le newline

theorem Filled.begin {lines : ℕ} (hlines : lines = bytes.count newline + 1) : Filled bytes 0 (List.replicate lines 0) 1 := by
  have hpos : 0 < lines := by omega
  refine ⟨by rw [List.length_replicate,hlines],rfl,fun k start hk hget => ?_,fun i hi => absurd hi (Nat.not_lt_zero i),?_⟩
  · obtain rfl : k = 0 := by omega
    obtain ⟨_,rfl⟩ := List.getElem?_eq_some_iff.mp hget
    rw [List.getElem_replicate]
    exact ⟨rfl,.inl rfl⟩
  · rw [List.getElem?_replicate,if_pos hpos]

theorem Filled.line (h : Filled bytes i starts next) (hi : bytes[i]? = some newline) :
    next < starts.length ∧ Filled bytes (i + 1) (starts.set next (i + 1)) (next + 1) := by
  have hlt := (List.getElem?_eq_some_iff.mp hi).1
  have hcount := count_take_succ hi
  rw [if_pos rfl] at hcount
  have hroom : next < starts.length := by
    have hle := count_take_le bytes (Nat.succ_le_of_lt hlt)
    rw [Nat.succ_eq_add_one,List.take_length] at hle
    have := h.length
    have := h.next_eq
    omega
  have hnext := h.next_eq
  refine ⟨hroom,by rw [List.length_set]; exact h.length,by omega,fun k start hk hget => ?_,fun j hj hget => ?_,?_⟩
  · rcases eq_or_ne k next with rfl | hne
    · rw [List.getElem?_set_self hroom] at hget
      obtain rfl := Option.some.inj hget
      exact ⟨by omega,.inr ⟨_,take_succ hi⟩⟩
    · rw [List.getElem?_set_ne (Ne.symm hne)] at hget
      exact h.lines k start (by omega) hget
  · rcases Nat.lt_succ_iff_lt_or_eq.mp hj with hj | rfl
    · have hle := count_take_le bytes (Nat.succ_le_of_lt hj)
      rw [List.getElem?_set_ne (by rw [Nat.succ_eq_add_one] at hle; omega)]
      exact h.all j hj hget
    · rw [hcount,← hnext,List.getElem?_set_self hroom]
  · rw [List.getElem?_set_ne (by omega)]
    exact h.first

theorem Filled.other {byte : ℕ} (h : Filled bytes i starts next) (hi : bytes[i]? = some byte) (hbyte : byte ≠ newline) :
    Filled bytes (i + 1) starts next := by
  have hcount := count_take_succ hi
  rw [if_neg hbyte,Nat.add_zero] at hcount
  refine ⟨h.length,hcount ▸ h.next_eq,h.lines,fun j hj hget => ?_,h.first⟩
  rcases Nat.lt_succ_iff_lt_or_eq.mp hj with hj | rfl
  · exact h.all j hj hget
  · exact absurd (Option.some.inj (hi.symm.trans hget)) hbyte

theorem countLine_all (bytes : List ℕ) : (List.range bytes.length).foldlM (countLine bytes) 1 = .ok (bytes.count newline + 1) := by
  have hstep : ∀ i < bytes.length, ∀ lines, lines = (bytes.take i).count newline + 1 →
      ∃ lines', countLine bytes lines i = .ok lines' ∧ lines' = (bytes.take (i + 1)).count newline + 1 := by
    intro i hi lines hlines
    have hget := List.getElem?_eq_getElem hi
    refine ⟨_,by rw [countLine,hget],?_⟩
    rw [count_take_succ hget,hlines]
    split_ifs
    · omega
    · rfl
  obtain ⟨lines,hlines,rfl⟩ := foldlM_range hstep rfl
  rwa [List.take_length] at hlines

theorem new_filled (bytes : List ℕ) : ∃ starts, LineIndex.new bytes = .ok ⟨starts⟩ ∧
    Filled bytes bytes.length starts (bytes.count newline + 1) := by
  have hstep : ∀ i < bytes.length, ∀ s : List ℕ × ℕ, Filled bytes i s.1 s.2 →
      ∃ s', fillLine bytes s i = .ok s' ∧ Filled bytes (i + 1) s'.1 s'.2 := by
    intro i hi s hs
    have hget := List.getElem?_eq_getElem hi
    rw [fillLine,hget]
    dsimp only
    by_cases hbyte : bytes[i] = newline
    · rw [hbyte] at hget
      obtain ⟨hroom,hs'⟩ := hs.line hget
      exact ⟨_,by rw [if_pos hbyte,if_pos hroom],hs'⟩
    · exact ⟨s,if_neg hbyte,hs.other hget hbyte⟩
  obtain ⟨s,hs,hfilled⟩ := foldlM_range hstep (b := (List.replicate (bytes.count newline + 1) 0,1)) (.begin rfl)
  have hnext := hfilled.next_eq
  rw [List.take_length] at hnext
  refine ⟨s.1,?_,hnext ▸ hfilled⟩
  rw [LineIndex.new,countLine_all,ok_bind,hs,ok_bind]
  rfl

/-! ### The line of an offset -/

/-- The starts of a source: every one of them where a line starts, and one behind every newline. -/
structure Starts (bytes starts : List ℕ) : Prop where
  lines : ∀ k start, starts[k]? = some start → StartsLine bytes start k
  all : ∀ i, bytes[i]? = some newline → starts[(bytes.take (i + 1)).count newline]? = some (i + 1)
  first : starts[0]? = some 0

theorem Filled.done (h : Filled bytes bytes.length starts (bytes.count newline + 1)) : Starts bytes starts := by
  refine ⟨fun k start hget => h.lines k start ?_ hget,fun i hi => h.all i (List.getElem?_eq_some_iff.mp hi).1 hi,h.first⟩
  have hlt := (List.getElem?_eq_some_iff.mp hget).1
  have hlen := h.length
  omega

theorem Starts.mono (h : Starts bytes starts) {j start' : ℕ} (hj : starts[j]? = some start') (hk : starts[k]? = some start) (hjk : j < k) :
    start' < start := by
  by_contra hle
  have hcount := count_take_le bytes (Nat.le_of_not_lt hle)
  rw [(h.lines j start' hj).count,(h.lines k start hk).count] at hcount
  omega

/-- The search keeps the last line that starts no later than the offset between its bounds. -/
structure Between (starts : List ℕ) (offset : ℕ) (s : ℕ × ℕ) : Prop where
  low : ∃ start, starts[s.1]? = some start ∧ start ≤ offset
  order : s.1 ≤ s.2
  high : s.2 < starts.length
  past : ∀ k start, s.2 < k → starts[k]? = some start → offset < start

theorem lineIndexOf_last (h : Starts bytes starts) (offset : ℕ) : ∃ line start, lineIndexOf ⟨starts⟩ offset = .ok line ∧ starts[line]? = some start ∧
    start ≤ offset ∧ ∀ k start', line < k → starts[k]? = some start' → offset < start' := by
  have hpos := (List.getElem?_eq_some_iff.mp h.first).1
  have hstart : Between starts offset (0,starts.length - 1) := by
    refine ⟨⟨0,h.first,Nat.zero_le _⟩,Nat.zero_le _,Nat.sub_one_lt_of_lt hpos,fun k start hk hget => ?_⟩
    have := (List.getElem?_eq_some_iff.mp hget).1
    dsimp only at hk
    omega
  obtain ⟨line,hline,⟨start,hget,hle⟩,hpast⟩ : ∃ line, lineIndexOf ⟨starts⟩ offset = .ok line ∧ (∃ start, starts[line]? = some start ∧ start ≤ offset) ∧
      ∀ k start', line < k → starts[k]? = some start' → offset < start' := by
    refine loop_ok (I := Between starts offset) (Q := fun line => (∃ start, starts[line]? = some start ∧ start ≤ offset) ∧
      ∀ k start', line < k → starts[k]? = some start' → offset < start') (fun s => s.2 - s.1) (fun s hs => ?_) hstart ?_
    · obtain ⟨low,high⟩ := s
      obtain ⟨hlow,horder,hhigh,hpast⟩ := hs
      dsimp only at hlow horder hhigh hpast ⊢
      by_cases hlt : low < high
      · have hmiddle : (low + high + 1) / 2 < starts.length := by omega
        have hget := List.getElem?_eq_getElem hmiddle
        rw [if_pos hlt,hget]
        refine .inr ⟨_,rfl,?_⟩
        by_cases hle : starts[(low + high + 1) / 2] ≤ offset
        · rw [if_pos hle]
          exact ⟨⟨⟨_,hget,hle⟩,by dsimp only; omega,hhigh,hpast⟩,by dsimp only; omega⟩
        · rw [if_neg hle]
          refine ⟨⟨hlow,by dsimp only; omega,by dsimp only; omega,fun k start hk hk' => ?_⟩,by dsimp only; omega⟩
          dsimp only at hk
          rcases Nat.lt_or_ge ((low + high + 1) / 2) k with hmore | hless
          · exact Nat.lt_trans (Nat.lt_of_not_le hle) (h.mono hget hk' hmore)
          · obtain rfl : k = (low + high + 1) / 2 := by omega
            obtain rfl := Option.some.inj (hget.symm.trans hk')
            exact Nat.lt_of_not_le hle
      · rw [if_neg hlt]
        obtain rfl : low = high := by omega
        exact .inl ⟨low,rfl,hlow,hpast⟩
    · dsimp only
      omega
  exact ⟨line,start,hline,hget,hle,hpast⟩

theorem positionAt_eq {line : ℕ} (hline : lineIndexOf index offset = .ok line) (hget : index.lineStarts[line]? = some start) :
    positionAt index offset = .ok ⟨line + 1,offset - start + 1⟩ := by
  rw [positionAt,hline,ok_bind,hget]

/-- The position of an offset is the one a reader counts: its line is one more than the newlines before it, and its column is one more than the
bytes since the last of these. -/
theorem positionAt_counts (bytes : List ℕ) (offset : ℕ) (hoffset : offset ≤ bytes.length) : ∃ index before tail,
    LineIndex.new bytes = .ok index ∧ bytes.take offset = before ++ tail ∧ newline ∉ tail ∧ (before = [] ∨ ∃ line, before = line ++ [newline]) ∧
    positionAt index offset = .ok ⟨before.count newline + 1,tail.length + 1⟩ := by
  obtain ⟨starts,hnew,hfilled⟩ := new_filled bytes
  have hs := hfilled.done
  obtain ⟨line,start,hline,hget,hle,hpast⟩ := lineIndexOf_last hs offset
  obtain ⟨hcount,hafter⟩ := hs.lines line start hget
  refine ⟨⟨starts⟩,bytes.take start,(bytes.take offset).drop start,hnew,?_,fun hmem => ?_,?_,?_⟩
  · have hsplit := (List.take_append_drop start (bytes.take offset)).symm
    rwa [List.take_take,Nat.min_eq_left hle] at hsplit
  · obtain ⟨i,hi⟩ := List.getElem?_of_mem hmem
    rw [List.getElem?_drop] at hi
    have hlt := (List.getElem?_eq_some_iff.mp hi).1
    rw [List.length_take] at hlt
    rw [List.getElem?_take_of_lt (by omega)] at hi
    have hlater := hs.all _ hi
    have hmore : line < (bytes.take (start + i + 1)).count newline := by
      have hsucc := count_take_succ hi
      rw [if_pos rfl] at hsucc
      have hle := count_take_le bytes (Nat.le_add_right start i)
      omega
    have := hpast _ _ hmore hlater
    omega
  · rcases hafter with rfl | hafter
    · exact .inl rfl
    · exact .inr hafter
  · rw [positionAt_eq hline hget,hcount,List.length_drop,List.length_take,Nat.min_eq_left hoffset]

/-- The byte behind a newline starts a line. -/
theorem positionAt_counts_second : ∃ index before tail, LineIndex.new [97,10,98] = .ok index ∧ [97,10] = before ++ tail ∧ newline ∉ tail ∧
    (before = [] ∨ ∃ line, before = line ++ [newline]) ∧ positionAt index 2 = .ok ⟨before.count newline + 1,tail.length + 1⟩ :=
  positionAt_counts [97,10,98] 2 (by decide)

/-- Positions come in the order of their offsets, so no two offsets share one. -/
theorem positionAt_ordered (bytes : List ℕ) {first second : ℕ} (h : first < second) : ∃ index p q, LineIndex.new bytes = .ok index ∧
    positionAt index first = .ok p ∧ positionAt index second = .ok q ∧ (p.line < q.line ∨ p.line = q.line ∧ p.column < q.column) := by
  obtain ⟨starts,hnew,hfilled⟩ := new_filled bytes
  have hs := hfilled.done
  obtain ⟨line,start,hline,hget,hle,-⟩ := lineIndexOf_last hs first
  obtain ⟨line',start',hline',hget',hle',hpast⟩ := lineIndexOf_last hs second
  refine ⟨⟨starts⟩,_,_,hnew,positionAt_eq hline hget,positionAt_eq hline' hget',?_⟩
  rcases Nat.lt_trichotomy line line' with hlt | rfl | hlt
  · exact .inl (Nat.succ_lt_succ hlt)
  · obtain rfl := Option.some.inj (hget.symm.trans hget')
    exact .inr ⟨rfl,by dsimp only; omega⟩
  · have := hpast line start hlt hget
    omega

theorem positionAt_ordered_second : ∃ index p q, LineIndex.new [97,10,98] = .ok index ∧ positionAt index 1 = .ok p ∧ positionAt index 2 = .ok q ∧
    (p.line < q.line ∨ p.line = q.line ∧ p.column < q.column) :=
  positionAt_ordered [97,10,98] (by decide)

end Ens.Lines
