import Mathlib.Data.List.Basic
import Mathlib.Data.List.GetD
import Mathlib.Data.List.Range

/-! # Ring buffers

A fixed row of slots holds a queue that starts at `head` and goes on from the last slot to
the first. Writing behind the queue adds to its end, and moving the head on drops its first.
-/
namespace Ens.Ring
variable {α : Type*} {slots : List α} {head count : ℕ} {d v : α}

def contents (slots : List α) (d : α) (head count : ℕ) : List α :=
  (List.range count).map fun i => slots.getD ((head + i) % slots.length) d

@[simp] theorem contents_zero : contents slots d head 0 = [] := rfl

@[simp] theorem length_contents : (contents slots d head count).length = count := by
  simp [contents]

/-- Two places of a ring less than its length apart are different places. -/
theorem mod_ne {n i j : ℕ} (h : i < j) (hn : j - i < n) : i % n ≠ j % n := by
  intro he
  have hd : (j - i) % n = 0 := Nat.sub_mod_eq_zero_of_mod_eq he.symm
  rw [Nat.mod_eq_of_lt hn] at hd
  omega

theorem getD_set_ne {i j : ℕ} (h : i ≠ j) : (slots.set i v).getD j d = slots.getD j d := by
  simp [List.getD_eq_getElem?_getD,h]

theorem getD_set_self {i : ℕ} (h : i < slots.length) : (slots.set i v).getD i d = v := by
  simp [List.getD_eq_getElem?_getD,h]

theorem contents_push (hc : count < slots.length) :
    contents (slots.set ((head + count) % slots.length) v) d head (count + 1) =
      contents slots d head count ++ [v] := by
  have hpos : 0 < slots.length := Nat.lt_of_le_of_lt (Nat.zero_le _) hc
  simp only [contents,List.range_succ,List.map_append,List.map_cons,List.map_nil,List.length_set]
  congr 1
  · refine List.map_congr_left fun i hi => getD_set_ne ?_
    have hi := List.mem_range.mp hi
    exact (mod_ne (by omega) (by omega)).symm
  · rw [getD_set_self (Nat.mod_lt _ hpos)]

theorem contents_head (hh : head < slots.length) (hc : 0 < count) :
    contents slots d head count =
      slots.getD head d :: contents slots d ((head + 1) % slots.length) (count - 1) := by
  obtain ⟨n,rfl⟩ : ∃ n, count = n + 1 := ⟨count - 1,by omega⟩
  simp only [contents,List.range_succ_eq_map,List.map_cons,List.map_map,Nat.add_zero,
    Nat.mod_eq_of_lt hh,Nat.add_sub_cancel]
  congr 1
  refine List.map_congr_left fun i _ => ?_
  simp only [Function.comp,Nat.succ_eq_add_one,Nat.mod_add_mod]
  congr 2
  omega

/-- Clearing the head as it moves on changes nothing that is still queued. -/
theorem contents_pop (hh : head < slots.length) (hc : count ≤ slots.length) (hpos : 0 < count) :
    contents slots d head count = slots.getD head d ::
      contents (slots.set head v) d ((head + 1) % slots.length) (count - 1) := by
  rw [contents_head hh hpos]
  congr 1
  simp only [contents,List.length_set]
  refine List.map_congr_left fun i hi => (getD_set_ne ?_).symm
  have hi := List.mem_range.mp hi
  rw [Nat.mod_add_mod]
  have := mod_ne (n := slots.length) (i := head) (j := head + 1 + i) (by omega) (by omega)
  rwa [Nat.mod_eq_of_lt hh] at this

/-! ### Place by place -/

variable {view view' : ℕ → α} {n i j p : ℕ}

def place (n head i : ℕ) : ℕ := if n ≤ head + i then head + i - n else head + i

theorem place_zero (hh : head < n) : place n head 0 = head := by
  rw [place,Nat.add_zero,if_neg (not_le.mpr hh)]

theorem place_lt (hh : head < n) (hi : i ≤ n) : place n head i < n := by
  rw [place]
  split_ifs <;> omega

theorem place_eq_mod (hh : head < n) (hi : i ≤ n) : place n head i = (head + i) % n := by
  rw [place]
  split_ifs with hle
  · rw [Nat.mod_eq_sub_mod hle,Nat.mod_eq_of_lt (by omega)]
  · rw [Nat.mod_eq_of_lt (not_le.mp hle)]

theorem place_inj (hi : i < n) (hj : j < n) : place n head i = place n head j ↔ i = j := by
  rw [place,place]
  split_ifs <;> omega

theorem exists_place (hh : head < n) (hp : p < n) : ∃ i < n, place n head i = p := by
  rcases le_total head p with hle | hle
  · refine ⟨p - head,by omega,?_⟩
    rw [place]
    split_ifs <;> omega
  · refine ⟨if p = head then 0 else p + n - head,by split_ifs <;> omega,?_⟩
    rw [place]
    split_ifs <;> omega

/-- From the head on and round to it, the slots hold what `view` says. -/
def Shows (slots : List α) (head : ℕ) (view : ℕ → α) : Prop :=
  ∀ i < slots.length, slots[place slots.length head i]? = some (view i)

theorem Shows.congr (h : Shows slots head view) (he : ∀ i < slots.length, view i = view' i) : Shows slots head view' := fun i hi => by
  rw [h i hi,he i hi]

theorem Shows.set (h : Shows slots head view) (hh : head < slots.length) (hj : j < slots.length) (v : α) :
    Shows (slots.set (place slots.length head j) v) head fun i => if i = j then v else view i := by
  intro i hi
  rw [List.length_set] at hi ⊢
  dsimp only
  by_cases hij : i = j
  · rw [if_pos hij,hij,List.getElem?_set_self (place_lt hh hj.le)]
  · rw [if_neg hij,List.getElem?_set_ne fun he => hij ((place_inj hj hi).mp he).symm,h i hi]

theorem Shows.back (h : Shows slots head view) (hh : head < slots.length) :
    Shows slots (place slots.length head (slots.length - 1)) fun i => if i = 0 then view (slots.length - 1) else view (i - 1) := by
  intro i hi
  dsimp only
  by_cases hz : i = 0
  · rw [if_pos hz,hz,place_zero (place_lt hh (Nat.sub_le _ _)),h _ (by omega)]
  · rw [if_neg hz,← h (i - 1) (by omega)]
    congr 1
    simp only [place]
    split_ifs <;> omega

theorem Shows.on (h : Shows slots head view) (hh : head < slots.length) :
    Shows slots (place slots.length head 1) fun i => if i = slots.length - 1 then view 0 else view (i + 1) := by
  intro i hi
  dsimp only
  by_cases hl : i = slots.length - 1
  · rw [if_pos hl,← h 0 (by omega)]
    congr 1
    simp only [place]
    split_ifs <;> omega
  · rw [if_neg hl,← h (i + 1) (by omega)]
    congr 1
    simp only [place]
    split_ifs <;> omega

theorem Shows.of_all (h : Shows slots head fun _ => v) (hh : head < slots.length) : slots = List.replicate slots.length v := by
  refine List.eq_replicate_iff.mpr ⟨rfl,fun x hx => ?_⟩
  obtain ⟨p,hp,rfl⟩ := List.getElem_of_mem hx
  obtain ⟨i,hi,hplace⟩ := exists_place hh hp
  have hslot := h i hi
  rw [hplace,List.getElem?_eq_getElem hp] at hslot
  exact Option.some.inj hslot

end Ens.Ring
