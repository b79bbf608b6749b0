import Ens.Narrow.Layers
import Ens.Logic.Undo

/-! # What the journal records

A change to a layer where the branches start is recorded before it is made. Clearing paths removes writes besides, and
those it does not record where the layer holds no proof of their path.
-/
set_option linter.all false
namespace Ens.Narrow
open Entries Undo
variable {P T E : Type} [DecidableEq P] {s t u : State P T E} {i j : ℕ} {p q : P} {l : List ℕ} {v : T} {w : E}
variable {f : Layer P T E → Layer P T E} {new old : List (LayerEntry P T E)} {accepted : P → Bool} {a : ℕ × P}

namespace State

/-! ### Changes to what is held -/

theorem held_modify : (s.modify i f).held (j,q) = if i = j ∧ j < s.layers.length then (f (s.layer j)).held q else s.held (j,q) := by
  rw [held,layer_modify]
  split <;> rfl

theorem modify_other (hl : t.layers = s.layers.modify i f) (hf : ∀ l q, q ≠ p → (f l).held q = l.held q) (ha : a ≠ (i,p)) :
    t.held a = s.held a := by
  obtain ⟨j,q⟩ := a
  have ht : t.held (j,q) = (s.modify i f).held (j,q) := by
    unfold held layer modify
    rw [hl]
  rw [ht,held_modify]
  split
  · rename_i hij
    refine hf _ q fun hq => ha ?_
    rw [hq,hij.1]
  · rfl

structure Logs (new : List (LayerEntry P T E)) (s t : State P T E) : Prop where
  journals : t.journals = s.journals.modifyHead fun j => { j with replaced := new ++ j.replaced }
  length : ∀ j ∈ s.journals.head?, j.depth ≤ s.layers.length → j.depth ≤ t.layers.length
  low : ∀ j ∈ s.journals.head?, ∀ e ∈ new, e.1.1 < j.depth
  undone : ∀ j ∈ s.journals.head?, ∀ a : ℕ × P, a.1 < j.depth → undo new t.held a = s.held a

theorem Logs.refl : Logs [] s s where
  journals := by cases s.journals <;> rfl
  length _ _ h := h
  low := nofun
  undone _ _ _ _ := rfl

theorem Logs.head (h : Logs new s t) {j : Journal P T E} (hj : j ∈ s.journals.head?) :
    ({ j with replaced := new ++ j.replaced } : Journal P T E) ∈ t.journals.head? := by
  rw [h.journals]
  cases hs : s.journals with
  | nil =>
    rw [hs] at hj
    cases hj
  | cons k ks =>
    rw [hs] at hj
    obtain rfl := Option.some.inj hj
    rfl

theorem Logs.trans (h : Logs old s t) (h' : Logs new t u) : Logs (new ++ old) s u where
  journals := by
    rw [h'.journals,h.journals]
    cases s.journals with
    | nil => rfl
    | cons j js => simp
  length j hj hle := h'.length { j with replaced := old ++ j.replaced } (h.head hj) (h.length j hj hle)
  low j hj e he := by
    rcases List.mem_append.mp he with he | he
    · exact h'.low _ (h.head hj) e he
    · exact h.low j hj e he
  undone j hj a ha := by
    rw [undo_append,← h.undone j hj a ha]
    exact undo_congr (.inr (h'.undone _ (h.head hj) a ha))

/-- What is done besides to addresses the journal names is undone with the rest. -/
theorem Logs.besides (h : Logs new s t) (hj : u.journals = t.journals) (hl : u.layers.length = t.layers.length)
    (ha : ∀ j ∈ s.journals.head?, ∀ a : ℕ × P, a.1 < j.depth → Logged new a ∨ u.held a = t.held a) : Logs new s u where
  journals := hj.trans h.journals
  length j hm hle := hl ▸ h.length j hm hle
  low := h.low
  undone j hm a hlt := by
    rw [undo_congr (ha j hm a hlt)]
    exact h.undone j hm a hlt

theorem record_logs (hj : t.journals = (s.record i p).journals) (hl : t.layers.length = s.layers.length)
    (hf : ∀ a, a ≠ (i,p) → t.held a = s.held a) :
    ∃ new, Logs new s t ∧ ∀ j ∈ s.journals.head?, i < j.depth → Logged new (i,p) := by
  unfold record at hj
  cases hs : s.journals with
  | nil =>
    rw [hs] at hj
    exact ⟨[],⟨by rw [hj,hs]; rfl,by rw [hs]; nofun,nofun,by rw [hs]; nofun⟩,nofun⟩
  | cons j js =>
    rw [hs] at hj
    dsimp only at hj
    split at hj
    · rename_i hge
      refine ⟨[],⟨by rw [hj,hs]; rfl,fun _ _ hle => hl ▸ hle,nofun,fun k hk a ha => ?_⟩,fun k hk hlt => ?_⟩
      · rw [hs] at hk
        obtain rfl := Option.some.inj hk
        refine hf a fun hai => ?_
        rw [hai] at ha
        dsimp only at ha
        omega
      · obtain rfl := Option.some.inj hk
        omega
    · rename_i hlt
      refine ⟨[((i,p),s.held (i,p))],⟨by rw [hj,hs]; rfl,fun _ _ hle => hl ▸ hle,fun k hk e he => ?_,fun k hk a ha => ?_⟩,
        fun k hk _ => ⟨_,List.mem_singleton_self _,rfl⟩⟩
      · rw [hs] at hk
        obtain rfl := Option.some.inj hk
        obtain rfl := List.mem_singleton.mp he
        exact Nat.lt_of_not_ge hlt
      · rw [undo_change hf]

def Kept (s t : State P T E) : Prop := ∃ new, Logs new s t

theorem Kept.trans (h : Kept s t) (h' : Kept t u) : Kept s u := by
  obtain ⟨old,h⟩ := h
  obtain ⟨new,h'⟩ := h'
  exact ⟨_,h.trans h'⟩

/-! ### The operations -/

theorem insert_other {X : Type} {m : List (P × X)} {x : X} (hp : q ≠ p) : lookup (insert m p x) q = lookup m q :=
  lookup_insert_ne (by simpa using hp)

theorem erase_other {X : Type} {m : List (P × X)} (hp : q ≠ p) : lookup (erase m p) q = lookup m q :=
  lookup_erase_ne (by simpa using hp)

theorem length_record_modify : ((s.record i p).modify i f).layers.length = s.layers.length := by
  rw [modify,List.length_modify,record_layers.1]

theorem length_fill_modify : (((s.record i p).fill i).modify i f).layers.length = s.layers.length := length_record_modify

theorem narrow_kept : Kept s (s.narrow p v) := by
  obtain ⟨new,h,-⟩ := record_logs (t := s.narrow p v) (i := s.top) (p := p) rfl length_fill_modify fun a ha =>
    modify_other (by rw [narrow,modify,fill,record_layers.1]) (fun l q hq => by
      rw [Layer.held,Layer.held,insert_other hq,erase_other hq,erase_other hq]) ha
  exact ⟨new,h⟩

theorem noteWrite_kept : Kept s (s.noteWrite p w) := by
  obtain ⟨new,h,-⟩ := record_logs (t := s.noteWrite p w) (i := s.top) (p := p) rfl length_fill_modify fun a ha =>
    modify_other (by rw [noteWrite,modify,fill,record_layers.1]) (fun l q hq => by rw [Layer.held,Layer.held,insert_other hq]) ha
  exact ⟨new,h⟩

theorem setEnd_logs : ∃ new, Logs new s (s.setEnd i p w) ∧ ∀ j ∈ s.journals.head?, i < j.depth → Logged new (i,p) :=
  record_logs rfl length_record_modify fun a ha =>
    modify_other (by rw [setEnd,modify,record_layers.1]) (fun l q hq => by rw [Layer.held,Layer.held,insert_other hq]) ha

theorem clearPathIn_kept : Kept s (clearPathIn p s i) := by
  unfold clearPathIn
  split
  · obtain ⟨new,h,-⟩ := record_logs (t := (s.record i p).modify i fun l => { l with proofs := erase l.proofs p, writes := erase l.writes p })
      (i := i) (p := p) rfl length_record_modify fun a ha =>
        modify_other (by rw [modify,record_layers.1]) (fun l q hq => by
          rw [Layer.held,Layer.held,erase_other hq,erase_other hq]) ha
    exact ⟨new,h⟩
  · exact ⟨[],Logs.refl⟩

theorem Kept.refl : Kept s s := ⟨[],Logs.refl⟩

theorem Kept.foldl {X : Type} {f : State P T E → X → State P T E} {xs : List X} (h : ∀ s x, x ∈ xs → Kept s (f s x)) :
    Kept s (xs.foldl f s) := by
  induction xs generalizing s with
  | nil => exact .refl
  | cons x xs ih => exact (h s x (List.mem_cons_self ..)).trans (ih fun s y hy => h s y (List.mem_cons_of_mem x hy))

theorem renewWhere_kept : Kept s (s.renewWhere accepted w) := by
  refine Kept.foldl fun s i _ => Kept.foldl fun s key _ => ?_
  split
  · obtain ⟨new,h,-⟩ := setEnd_logs (s := s) (i := i) (p := key) (w := w)
    exact ⟨new,h⟩
  · exact .refl

theorem clearPath_kept : Kept s (s.clearPath p) := Kept.foldl fun _ _ _ => clearPathIn_kept

theorem setEnd_layer : ((s.setEnd i p w).layer j).proofs = (s.layer j).proofs ∧ ((s.setEnd i p w).layer j).writes = (s.layer j).writes := by
  have hl : (s.record i p).layer j = s.layer j := by rw [layer,layer,record_layers.1]
  rw [setEnd,layer_modify]
  split
  · dsimp only
    rw [hl]
    exact ⟨rfl,rfl⟩
  · rw [hl]
    exact ⟨rfl,rfl⟩

/-- A layer keeps no write that clearing the accepted paths would remove with no proof of its path. -/
def Spared (accepted : P → Bool) (l : Layer P T E) : Prop :=
  l.proofs = [] ∨ ∀ e ∈ l.writes, accepted e.1 = true → (lookup l.proofs e.1).isSome

instance {l : Layer P T E} : Decidable (Spared accepted l) := by
  unfold Spared
  exact inferInstance

theorem lookup_removeWhere {X : Type} {m : List (P × X)} :
    lookup (m.filter fun e => !accepted e.1) q = if accepted q = true then none else lookup m q := by
  induction m with
  | nil => split <;> rfl
  | cons e m ih =>
    unfold lookup at ih ⊢
    rw [List.filter_cons,List.find?_cons]
    by_cases he : e.1 = q
    · subst he
      split
      · rename_i hq
        rw [if_neg (by simpa using hq),List.find?_cons]
        simp
      · rename_i hq
        rw [ih,if_pos (by simpa using hq),if_pos (by simpa using hq)]
    · have hne : (e.1 == q) = false := by simpa using he
      rw [hne]
      split
      · rw [List.find?_cons,hne]
        exact ih
      · exact ih

theorem setEnds_logs (accepted : P → Bool) (i : ℕ) (w : E) (keys : List P) (s : State P T E) :
    let t := keys.foldl (fun s key => if accepted key then s.setEnd i key w else s) s
    (∃ new, Logs new s t ∧ ∀ k ∈ keys, accepted k = true → ∀ j ∈ s.journals.head?, i < j.depth → Logged new (i,k)) ∧
      t.layers.length = s.layers.length ∧ (t.layer i).proofs = (s.layer i).proofs ∧ (t.layer i).writes = (s.layer i).writes := by
  induction keys generalizing s with
  | nil => exact ⟨⟨[],Logs.refl,nofun⟩,rfl,rfl,rfl⟩
  | cons k keys ih =>
    dsimp only at ih ⊢
    rw [List.foldl_cons]
    by_cases hk : accepted k = true
    · rw [if_pos hk]
      obtain ⟨old,hold,hlogged⟩ := setEnd_logs (s := s) (i := i) (p := k) (w := w)
      obtain ⟨⟨new,hnew,hall⟩,hlen,hp,hw⟩ := ih (s.setEnd i k w)
      refine ⟨⟨new ++ old,hold.trans hnew,fun m hm ha j hj hlt => ?_⟩,hlen.trans length_record_modify,hp.trans setEnd_layer.1,
        hw.trans setEnd_layer.2⟩
      rcases List.mem_cons.mp hm with rfl | hm
      · obtain ⟨e,he,hek⟩ := hlogged j hj hlt
        exact ⟨e,List.mem_append_right _ he,hek⟩
      · obtain ⟨e,he,hek⟩ := hall m hm ha _ (hold.head hj) hlt
        exact ⟨e,List.mem_append_left _ he,hek⟩
    · rw [if_neg hk]
      obtain ⟨⟨new,hnew,hall⟩,hrest⟩ := ih s
      refine ⟨⟨new,hnew,fun m hm ha j hj hlt => ?_⟩,hrest⟩
      rcases List.mem_cons.mp hm with rfl | hm
      · exact absurd ha hk
      · exact hall m hm ha j hj hlt

theorem clearLayer_kept (h : ∀ j ∈ s.journals.head?, i < j.depth → Spared accepted (s.layer i)) : Kept s (clearLayer accepted w s i) := by
  unfold clearLayer
  split
  · exact .refl
  · rename_i hne
    obtain ⟨⟨new,hlogs,hall⟩,hlen,hp,hw⟩ := setEnds_logs accepted i w ((s.layer i).proofs.map Prod.fst) s
    refine ⟨new,hlogs.besides rfl (List.length_modify ..) fun j hj a ha => ?_⟩
    obtain ⟨k,q⟩ := a
    rw [held_modify]
    split
    · rename_i hk
      obtain ⟨rfl,-⟩ := hk
      by_cases hq : accepted q = true
      · by_cases hproof : (lookup (s.layer i).proofs q).isSome
        · obtain ⟨e,he,heq⟩ := lookup_isSome_iff.mp hproof
          exact .inl (hall q (List.mem_map.mpr ⟨e,he,beq_iff_eq.mp heq⟩) hq j hj ha)
        · right
          have hwrite : lookup (s.layer i).writes q = none := by
            refine lookup_none_iff.mpr fun e he => ?_
            by_contra heq
            have heq : e.1 = q := by simpa using heq
            rcases h j hj ha with hnil | hspared
            · rw [hnil] at hne
              exact hne rfl
            · exact hproof (heq ▸ hspared e he (heq ▸ hq))
          rw [held,Layer.held,Layer.held,lookup_removeWhere,lookup_removeWhere,if_pos hq,if_pos hq,hp,hw,hwrite,
            Option.not_isSome_iff_eq_none.mp hproof]
      · right
        rw [held,Layer.held,Layer.held,lookup_removeWhere,lookup_removeWhere,if_neg hq,if_neg hq]
    · exact .inr rfl

/-! ### Layers an operation leaves alone -/

theorem record_only : OnlyAt [i] s (s.record i p) where
  filled := record_layers.2
  length := by rw [record_layers.1]
  layer j _ := by rw [layer,layer,record_layers.1]
  depths := by
    unfold record
    split
    · rfl
    · rename_i hs
      split
      · rfl
      · rw [hs]
        rfl

theorem setEnd_only : OnlyAt [i] s (s.setEnd i p w) := record_only.trans modify_only

theorem clearLayer_only : OnlyAt [i] s (clearLayer accepted w s i) := by
  unfold clearLayer
  split
  · exact .refl
  · refine OnlyAt.trans (OnlyAt.foldl fun s key _ => ?_) modify_only
    split
    · exact setEnd_only
    · exact .refl

theorem renewLayer_only : OnlyAt [i] s (renewLayer accepted w s i) := by
  refine OnlyAt.foldl fun s key _ => ?_
  split
  · exact setEnd_only
  · exact .refl

theorem clearPathIn_only : OnlyAt [i] s (clearPathIn p s i) := by
  unfold clearPathIn
  split
  · exact record_only.trans modify_only
  · exact .refl

/-! ### Clearing -/

theorem Logs.depth (h : Logs new s t) {j : Journal P T E} (hj : j ∈ t.journals.head?) : ∃ k ∈ s.journals.head?, k.depth = j.depth := by
  rw [h.journals] at hj
  cases hs : s.journals with
  | nil =>
    rw [hs] at hj
    cases hj
  | cons k ks =>
    rw [hs] at hj
    obtain rfl := Option.some.inj hj
    exact ⟨k,rfl,rfl⟩

/-- Where the branches start, clearing the accepted paths removes no write it does not record. -/
def ClearsRecorded (s : State P T E) (accepted : P → Bool) : Prop :=
  ∀ j ∈ s.journals.head?, ∀ i ∈ s.filled, i < j.depth → Spared accepted (s.layer i)

theorem clearWhere_kept (hs : s.Filled) (h : ClearsRecorded s accepted) : Kept s (s.clearWhere accepted w) := by
  have hnodup : s.filled.reverse.Pairwise (· ≠ ·) := List.pairwise_reverse.mpr (hs.sorted.imp Nat.ne_of_lt)
  have hmem : ∀ j ∈ s.journals.head?, ∀ i ∈ s.filled.reverse, i < j.depth → Spared accepted (s.layer i) :=
    fun j hj i hi => h j hj i (List.mem_reverse.mp hi)
  unfold clearWhere
  generalize s.filled.reverse = l at hnodup hmem
  clear h hs
  induction l generalizing s with
  | nil => exact .refl
  | cons i l ih =>
    obtain ⟨hi,hl⟩ := List.pairwise_cons.mp hnodup
    have hkept : Kept s (clearLayer accepted w s i) := clearLayer_kept fun j hj => hmem j hj i (List.mem_cons_self ..)
    refine hkept.trans (ih hl fun j hj k hk hlt => ?_)
    obtain ⟨new,hlogs⟩ := hkept
    obtain ⟨j',hj',hdepth⟩ := hlogs.depth hj
    rw [clearLayer_only.layer k (by simpa using (hi k hk).symm)]
    exact hmem j' hj' k (List.mem_cons_of_mem i hk) (hdepth ▸ hlt)

theorem endProof_kept (hs : s.Filled) (h : ClearsRecorded s fun key => key = p) : Kept s (s.endProof p w) := by
  unfold endProof
  dsimp only
  have hcleared : Kept s ((s.clearWhere (fun key => key = p) w).renewWhere (fun key => key = p) w) :=
    (clearWhere_kept hs h).trans renewWhere_kept
  split
  · refine hcleared.trans ?_
    generalize (s.clearWhere (fun key => key = p) w).renewWhere (fun key => key = p) w = t
    obtain ⟨new,hlogs,-⟩ := record_logs (s := t) (t := ((t.record t.top p).fill t.top).modify t.top fun l => { l with ends := insert l.ends p w })
      (i := t.top) (p := p) rfl length_fill_modify fun a ha =>
        modify_other (by rw [modify,fill,record_layers.1]) (fun l q hq => by rw [Layer.held,Layer.held,insert_other hq]) ha
    exact ⟨new,hlogs⟩
  · exact hcleared

/-! ### Pushing and popping -/

theorem push_kept : Kept s s.push := by
  have hheld : s.push.held = s.held := by
    funext ⟨i,q⟩
    unfold held layer push
    dsimp only
    rw [List.getD_eq_getElem?_getD,List.getD_eq_getElem?_getD]
    by_cases hi : i < s.layers.length
    · rw [List.getElem?_append_left hi]
    · rw [List.getElem?_append_right (Nat.le_of_not_lt hi),List.getElem?_eq_none (Nat.le_of_not_lt hi)]
      cases i - s.layers.length <;> rfl
  have hlen : s.layers.length ≤ s.push.layers.length := by
    rw [push,List.length_append]
    exact Nat.le_add_right ..
  exact ⟨[],by cases hj : s.journals <;> simp [push,hj],fun j _ hle => Nat.le_trans hle hlen,by rintro _ _ _ ⟨⟩,fun j _ a _ => by rw [hheld]; rfl⟩

theorem pop_kept (h : ∀ j ∈ s.journals.head?, j.depth < s.layers.length) : Kept s s.pop := by
  unfold pop
  split
  · refine ⟨[],by cases hj : s.journals <;> simp [popLayer,hj],fun j hj _ => ?_,nofun,fun j hj a ha => ?_⟩
    · have := h j hj
      rw [popLayer,List.length_dropLast]
      omega
    · have := h j hj
      obtain ⟨i,q⟩ := a
      dsimp only at ha
      rw [undo_nil,held,held,layer_popLayer (by dsimp only; omega)]
  · exact .refl

end State
end Ens.Narrow
