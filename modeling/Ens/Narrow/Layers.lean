import Ens.Narrow.State
import Mathlib.Data.List.GetD

/-! # What the layers hold

The layers that were not filled are empty, so reading the filled ones reads all of them, and what holds for a path
depends on what each layer holds for it.
-/
set_option linter.all false
namespace Ens.Narrow
open Entries
variable {P T E X : Type} {s t u : State P T E} {i j k : ℕ} {p q : P} {l : List ℕ} {v : T} {w : E}
variable {f : Layer P T E → Layer P T E} {g : Held T E → Option X}

namespace State

structure Filled (s : State P T E) : Prop where
  nonempty : 0 < s.layers.length
  sorted : s.filled.Pairwise (· > ·)
  bounded : ∀ i ∈ s.filled, i < s.layers.length
  covers : ∀ i ∉ s.filled, s.layer i = {}

/-! ### Filling -/

theorem mem_fillIndex : j ∈ fillIndex i l ↔ j = i ∨ j ∈ l := by
  fun_induction fillIndex i l with
  | case1 => simp
  | case2 rest hge => simp
  | case3 f rest hge hne ih =>
    simp only [List.mem_cons,ih]
    tauto
  | case4 => simp

theorem fillIndex_sorted (hl : l.Pairwise (· > ·)) : (fillIndex i l).Pairwise (· > ·) := by
  fun_induction fillIndex i l with
  | case1 => simp
  | case2 => exact hl
  | case3 f rest hge hne ih =>
    obtain ⟨hf,hrest⟩ := List.pairwise_cons.mp hl
    refine List.pairwise_cons.mpr ⟨fun j hj => ?_,ih hrest⟩
    rcases mem_fillIndex.1 hj with rfl | hj
    · exact Nat.lt_of_le_of_ne hge (Ne.symm hne)
    · exact hf j hj
  | case4 f rest hlt =>
    obtain ⟨hf,-⟩ := List.pairwise_cons.mp hl
    refine List.pairwise_cons.mpr ⟨fun j hj => ?_,hl⟩
    rcases List.mem_cons.mp hj with rfl | hj
    · exact Nat.lt_of_not_ge hlt
    · exact Nat.lt_trans (hf j hj) (Nat.lt_of_not_ge hlt)

theorem layer_modify : (s.modify i f).layer j = if i = j ∧ j < s.layers.length then f (s.layer j) else s.layer j := by
  unfold layer modify
  dsimp only
  rw [List.getD_eq_getElem?_getD,List.getElem?_modify,List.getD_eq_getElem?_getD]
  by_cases hj : j < s.layers.length
  · by_cases hij : i = j <;> simp [hj,hij]
  · simp [hj]

theorem Filled.fill (hs : s.Filled) (hi : i < s.layers.length) : (s.fill i).Filled where
  nonempty := hs.nonempty
  sorted := fillIndex_sorted hs.sorted
  bounded j hj := by
    rcases mem_fillIndex.1 hj with rfl | hj
    · exact hi
    · exact hs.bounded j hj
  covers j hj := hs.covers j fun hmem => hj (mem_fillIndex.2 (.inr hmem))

theorem Filled.modify (hs : s.Filled) (hi : i ∈ s.filled) : (s.modify i f).Filled where
  nonempty := by
    rw [State.modify,List.length_modify]
    exact hs.nonempty
  sorted := hs.sorted
  bounded j hj := by
    rw [State.modify,List.length_modify]
    exact hs.bounded j hj
  covers j hj := by
    rw [layer_modify,if_neg fun hij : i = j ∧ _ => hj (hij.1 ▸ hi)]
    exact hs.covers j hj

theorem mem_fill : i ∈ (s.fill i).filled := mem_fillIndex.2 (.inl rfl)

theorem Filled.congr (hs : s.Filled) (hl : t.layers = s.layers) (hf : t.filled = s.filled) : t.Filled := by
  obtain ⟨layers,filled,journals⟩ := t
  dsimp only at hl hf
  subst hl hf
  exact ⟨hs.nonempty,hs.sorted,hs.bounded,hs.covers⟩

theorem Filled.top (hs : s.Filled) : s.top < s.layers.length := Nat.sub_lt hs.nonempty Nat.one_pos

theorem Filled.push (hs : s.Filled) : s.push.Filled where
  nonempty := by
    rw [State.push,List.length_append]
    exact Nat.add_pos_right _ Nat.one_pos
  sorted := hs.sorted
  bounded j hj := by
    rw [State.push,List.length_append]
    exact Nat.lt_add_right _ (hs.bounded j hj)
  covers j hj := by
    have hl := hs.covers j hj
    unfold State.layer State.push at *
    dsimp only at *
    rw [List.getD_eq_getElem?_getD] at *
    by_cases hlt : j < s.layers.length
    · rwa [List.getElem?_append_left hlt]
    · rw [List.getElem?_append_right (Nat.le_of_not_lt hlt)]
      cases j - s.layers.length <;> rfl

theorem layer_popLayer (hi : i < s.layers.length - 1) : s.popLayer.layer i = s.layer i := by
  rw [layer,layer,List.getD_eq_getElem?_getD,List.getD_eq_getElem?_getD,popLayer]
  dsimp only
  rw [List.getElem?_dropLast,if_pos hi]

theorem Filled.popLayer (hs : s.Filled) (h1 : 1 < s.layers.length) : s.popLayer.Filled := by
  have hmem (j : ℕ) : j ∈ s.popLayer.filled ↔ j ∈ s.filled ∧ j ≠ s.top := by
    have htop := hs.bounded
    have hsorted := hs.sorted
    unfold State.popLayer
    dsimp only
    cases hf : s.filled with
    | nil => simp
    | cons f rest =>
      rw [hf] at htop hsorted
      obtain ⟨hrest,-⟩ := List.pairwise_cons.mp hsorted
      have hft := htop f (List.mem_cons_self ..)
      by_cases hh : f = s.top
      · rw [if_pos (by rw [hh]; rfl),List.tail_cons]
        constructor
        · intro hj
          have := hrest j hj
          exact ⟨List.mem_cons_of_mem f hj,by omega⟩
        · rintro ⟨hj,hne⟩
          rcases List.mem_cons.mp hj with rfl | hj
          · exact absurd hh hne
          · exact hj
      · rw [if_neg (by simpa using hh)]
        refine ⟨fun hj => ⟨hj,?_⟩,fun hj => hj.1⟩
        rintro rfl
        rcases List.mem_cons.mp hj with rfl | hj
        · exact hh rfl
        · have := hrest _ hj
          unfold State.top at this
          omega
  refine ⟨?_,?_,fun j hj => ?_,fun j hj => ?_⟩
  · rw [State.popLayer,List.length_dropLast]
    omega
  · unfold State.popLayer
    dsimp only
    split
    · exact hs.sorted.tail
    · exact hs.sorted
  · obtain ⟨hj,hne⟩ := (hmem j).mp hj
    have := hs.bounded j hj
    rw [State.popLayer,List.length_dropLast]
    unfold State.top at hne
    omega
  · by_cases hlt : j < s.layers.length - 1
    · rw [layer_popLayer hlt]
      exact hs.covers j fun hmem' => hj ((hmem j).mpr ⟨hmem',by unfold State.top; omega⟩)
    · unfold State.layer
      exact List.getD_eq_default _ _ (by rw [State.popLayer,List.length_dropLast]; omega)

/-! ### Layers an operation leaves alone -/

structure OnlyAt (l : List ℕ) (s t : State P T E) : Prop where
  filled : t.filled = s.filled
  length : t.layers.length = s.layers.length
  layer : ∀ j ∉ l, t.layer j = s.layer j
  depths : t.journals.map Journal.depth = s.journals.map Journal.depth

theorem OnlyAt.refl : OnlyAt l s s := ⟨rfl,rfl,fun _ _ => rfl,rfl⟩

theorem OnlyAt.trans (h : OnlyAt l s t) (h' : OnlyAt l t u) : OnlyAt l s u :=
  ⟨h'.filled.trans h.filled,h'.length.trans h.length,fun j hj => (h'.layer j hj).trans (h.layer j hj),
    h'.depths.trans h.depths⟩

theorem OnlyAt.mono {l' : List ℕ} (h : OnlyAt l s t) (hl : ∀ i ∈ l, i ∈ l') : OnlyAt l' s t :=
  ⟨h.filled,h.length,fun j hj => h.layer j fun hmem => hj (hl j hmem),h.depths⟩

theorem OnlyAt.foldl {X : Type} {f : State P T E → X → State P T E} {xs : List X} (h : ∀ s x, x ∈ xs → OnlyAt l s (f s x)) :
    OnlyAt l s (xs.foldl f s) := by
  induction xs generalizing s with
  | nil => exact .refl
  | cons x xs ih => exact (h s x (List.mem_cons_self ..)).trans (ih fun s y hy => h s y (List.mem_cons_of_mem x hy))

theorem modify_only : OnlyAt [i] s (s.modify i f) where
  filled := rfl
  length := List.length_modify ..
  layer j hj := by
    rw [layer_modify,if_neg]
    rintro ⟨rfl,-⟩
    exact hj (List.mem_singleton_self _)
  depths := rfl

theorem filled_only {f : State P T E → ℕ → State P T E} (h : ∀ s i, OnlyAt [i] s (f s i)) : OnlyAt s.filled s (s.filled.reverse.foldl f s) :=
  OnlyAt.foldl fun t i hi => (h t i).mono fun j hj => by
    obtain rfl := List.mem_singleton.mp hj
    exact List.mem_reverse.mp hi

theorem Filled.only (hs : s.Filled) (h : OnlyAt s.filled s t) : t.Filled where
  nonempty := h.length ▸ hs.nonempty
  sorted := h.filled ▸ hs.sorted
  bounded i hi := by
    rw [h.length]
    exact hs.bounded i (h.filled ▸ hi)
  covers i hi := by
    rw [h.filled] at hi
    rw [h.layer i hi]
    exact hs.covers i hi

/-! ### States that are reached -/

structure Sane (s : State P T E) : Prop where
  filled : s.Filled
  depths : ∀ d ∈ s.journals.map Journal.depth, 0 < d

theorem Sane.only (hs : s.Sane) (h : OnlyAt s.filled s t) : t.Sane := ⟨hs.filled.only h,h.depths ▸ hs.depths⟩

theorem Sane.start (hs : s.Sane) : s.startBranches.Sane :=
  ⟨hs.filled.congr rfl rfl,List.forall_mem_cons.mpr ⟨hs.filled.nonempty,hs.depths⟩⟩

theorem Sane.pop (hs : s.Sane) : s.pop.Sane := by
  unfold State.pop
  split
  · rename_i h1
    exact ⟨hs.filled.popLayer h1,hs.depths⟩
  · exact hs

theorem Sane.copy (hs : s.Sane) : s.copy.Sane := ⟨hs.filled.congr rfl rfl,nofun⟩

theorem Layer.eq_of_isEmpty {l : Layer P T E} (h : l.isEmpty = true) : l = {} := by
  obtain ⟨proofs,ends,writes⟩ := l
  simp only [Layer.isEmpty,Bool.and_eq_true,List.isEmpty_iff] at h
  obtain ⟨⟨rfl,rfl⟩,rfl⟩ := h
  rfl

theorem Sane.restoreLayers (hs : s.Sane) (ht : t.Sane) : (s.restoreLayers t.snapshotLayers).Sane where
  filled :=
    { nonempty := ht.filled.nonempty
      sorted := List.pairwise_reverse.mpr (List.Pairwise.filter _ List.pairwise_lt_range)
      bounded := fun i hi => List.mem_range.mp (List.mem_filter.mp (List.mem_reverse.mp hi)).1
      covers := fun i hi => by
        by_cases hlt : i < t.layers.length
        · refine Layer.eq_of_isEmpty ?_
          by_contra hne
          refine hi (List.mem_reverse.mpr (List.mem_filter.mpr ⟨List.mem_range.mpr hlt,?_⟩))
          exact (Bool.not_eq_true' _).mpr (Bool.eq_false_iff.mpr hne)
        · exact List.getD_eq_default _ _ (Nat.le_of_not_lt hlt) }
  depths := hs.depths

theorem sane_new : (State.new : State P T E).Sane where
  filled :=
    { nonempty := Nat.one_pos
      sorted := List.Pairwise.nil
      bounded := nofun
      covers := fun i _ => by
        cases i <;> rfl }
  depths := nofun

theorem sane_ofProven (proven : List (P × T)) : (State.ofProven proven : State P T E).Sane where
  filled :=
    { nonempty := Nat.one_pos
      sorted := List.pairwise_singleton ..
      bounded := fun i hi => by
        obtain rfl := List.mem_singleton.mp hi
        exact Nat.one_pos
      covers := fun i hi => by
        cases i with
        | zero => exact absurd (List.mem_singleton_self 0) hi
        | succ i => rfl }
  depths := nofun

/-! ### Reading -/

theorem findSome_sorted {h : ℕ → Option X} (hl : l.Pairwise (· > ·)) {x : X} :
    l.findSome? h = some x ↔ ∃ i ∈ l, h i = some x ∧ ∀ j ∈ l, j > i → h j = none := by
  induction l with
  | nil => simp
  | cons a l ih =>
    obtain ⟨ha,hl⟩ := List.pairwise_cons.mp hl
    rw [List.findSome?_cons]
    cases hv : h a with
    | some y =>
      constructor
      · rintro ⟨⟩
        refine ⟨a,List.mem_cons_self ..,hv,fun j hj hgt => ?_⟩
        rcases List.mem_cons.mp hj with rfl | hj
        · exact absurd hgt (Nat.lt_irrefl _)
        · exact absurd hgt (Nat.lt_asymm (ha j hj))
      · rintro ⟨i,hi,hx,hall⟩
        rcases List.mem_cons.mp hi with rfl | hi
        · exact hv.symm.trans hx
        · rw [hall a (List.mem_cons_self ..) (ha i hi)] at hv
          cases hv
    | none =>
      refine (ih hl).trans ⟨?_,?_⟩
      · rintro ⟨i,hi,hx,hall⟩
        refine ⟨i,List.mem_cons_of_mem a hi,hx,fun j hj hgt => ?_⟩
        rcases List.mem_cons.mp hj with rfl | hj
        · exact hv
        · exact hall j hj hgt
      · rintro ⟨i,hi,hx,hall⟩
        rcases List.mem_cons.mp hi with rfl | hi
        · rw [hx] at hv
          cases hv
        · exact ⟨i,hi,hx,fun j hj => hall j (List.mem_cons_of_mem a hj)⟩

variable [DecidableEq P]

theorem record_layers : (s.record i p).layers = s.layers ∧ (s.record i p).filled = s.filled := by
  unfold record
  split
  · exact ⟨rfl,rfl⟩
  · split <;> exact ⟨rfl,rfl⟩

theorem Filled.record (hs : s.Filled) : (s.record i p).Filled := hs.congr record_layers.1 record_layers.2

def held (s : State P T E) (a : ℕ × P) : Held T E := (s.layer a.1).held a.2

theorem Filled.held (hs : s.Filled) (hi : i ∉ s.filled) : s.held (i,p) = {} := by
  rw [State.held,hs.covers i hi]
  rfl

theorem held_beyond (h : s.layers.length ≤ i) : s.held (i,p) = {} := by
  rw [State.held,layer,List.getD_eq_default _ _ h]
  rfl

/-- Of what the layers come to, that of the innermost one that comes to anything. -/
theorem Filled.findSome (hs : s.Filled) (hg : g {} = none) {x : X} :
    (s.filled.findSome? fun i => g (s.held (i,p))) = some x ↔ ∃ i, g (s.held (i,p)) = some x ∧ ∀ j > i, g (s.held (j,p)) = none := by
  have hout (i : ℕ) (hi : i ∉ s.filled) : g (s.held (i,p)) = none := by
    rw [hs.held hi,hg]
  rw [findSome_sorted hs.sorted]
  constructor
  · rintro ⟨i,-,hx,hall⟩
    refine ⟨i,hx,fun j hj => ?_⟩
    by_cases hmem : j ∈ s.filled
    · exact hall j hmem hj
    · exact hout j hmem
  · rintro ⟨i,hx,hall⟩
    refine ⟨i,?_,hx,fun j _ hj => hall j hj⟩
    by_contra hmem
    rw [hout i hmem] at hx
    cases hx

theorem Filled.findSome_congr (hs : s.Filled) (ht : t.Filled) (hg : g {} = none) (h : ∀ i, s.held (i,p) = t.held (i,p)) :
    (s.filled.findSome? fun i => g (s.held (i,p))) = t.filled.findSome? fun i => g (t.held (i,p)) := by
  ext x
  rw [hs.findSome hg,ht.findSome hg]
  simp only [h]

def answers (s : State P T E) (p : P) : Option T × Option E × Option E := (s.provenType p,s.endOf p,s.writeOf p)

def Held.ending : Held T E → Option (Option E)
  | ⟨some _,_,_⟩ => some none
  | ⟨none,ended,_⟩ => ended.map some

def Held.writing : Held T E → Option (Option E)
  | ⟨_,_,some write⟩ => some (some write)
  | ⟨proof,_,none⟩ => proof.map fun _ => none

theorem Filled.answers_congr (hs : s.Filled) (ht : t.Filled) (h : ∀ i, s.held (i,p) = t.held (i,p)) : s.answers p = t.answers p := by
  have hproof : s.provenType p = t.provenType p := hs.findSome_congr ht (g := Held.proof) rfl h
  have hend : s.endOf p = t.endOf p := congrArg Option.join (hs.findSome_congr ht (X := Option E) (g := Held.ending) rfl h)
  have hwrite : s.writeOf p = t.writeOf p := congrArg Option.join (hs.findSome_congr ht (X := Option E) (g := Held.writing) rfl h)
  rw [answers,answers,hproof,hend,hwrite]

end State
end Ens.Narrow
