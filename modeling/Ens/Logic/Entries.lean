import Mathlib.Data.List.Basic
import Mathlib.Data.List.Perm.Basic

/-! # Finite maps as lists of entries

A finite map over keys with an equality of their own is a list of entries no two of which have
equal keys. The order of the entries says nothing: every operation respects permutations.
-/
namespace Ens.Entries
variable {K V : Type*} [BEq K]

def lookup (m : List (K × V)) (k : K) : Option V := (m.find? fun e => e.1 == k).map Prod.snd

def insert (m : List (K × V)) (k : K) (v : V) : List (K × V) :=
  if m.any fun e => e.1 == k then m.map fun e => if e.1 == k then (e.1,v) else e else (k,v) :: m

def erase (m : List (K × V)) (k : K) : List (K × V) := m.filter fun e => !(e.1 == k)

/-- No two entries have equal keys. -/
def Distinct (m : List (K × V)) : Prop := m.Pairwise fun a b => (a.1 == b.1) = false

variable {m l a b : List (K × V)} {k j : K} {v u : V} {e : K × V}

theorem distinct_nil : Distinct ([] : List (K × V)) := List.Pairwise.nil

theorem distinct_iff : Distinct m ↔ (m.map Prod.fst).Pairwise fun x y => (x == y) = false := by
  rw [Distinct,List.pairwise_map]

theorem lookup_none_iff : lookup m k = none ↔ ∀ e ∈ m, (e.1 == k) = false := by
  simp [lookup]

theorem any_false_iff : (m.any fun e => e.1 == k) = false ↔ lookup m k = none := by
  rw [lookup_none_iff]
  simp

theorem lookup_isSome_iff : (lookup m k).isSome ↔ ∃ e ∈ m, e.1 == k := by
  simp [lookup]

theorem insert_absent (h : lookup m k = none) : insert m k v = (k,v) :: m := by
  rw [insert,any_false_iff.mpr h]
  rfl

theorem insert_perm (h : m.Perm l) : (insert m k v).Perm (insert l k v) := by
  unfold insert
  rw [h.any_eq]
  split
  · exact h.map _
  · exact h.cons _

theorem erase_perm (h : m.Perm l) : (erase m k).Perm (erase l k) := h.filter _

theorem erase_absent (h : lookup m k = none) : erase m k = m := by
  rw [erase,List.filter_eq_self]
  intro e he
  simp [lookup_none_iff.mp h e he]

variable [EquivBEq K]

theorem key_ne (h : (e.1 == j) = false) (hk : j == k) : (e.1 == k) = false := by
  by_contra hc
  exact absurd (BEq.trans (by simpa using hc) (BEq.symm hk)) (by simp [h])

theorem Distinct.perm (h : Distinct m) (hp : m.Perm l) : Distinct l :=
  List.Pairwise.perm h hp fun hab => by rw [BEq.comm]; exact hab

theorem Distinct.cons (h : Distinct m) (hk : lookup m k = none) : Distinct ((k,v) :: m) := by
  refine List.pairwise_cons.mpr ⟨fun e he => ?_,h⟩
  rw [BEq.comm]
  exact lookup_none_iff.mp hk e he

theorem Distinct.around (h : Distinct (a ++ (j,u) :: b)) (hk : j == k) : (∀ e ∈ a, (e.1 == k) = false) ∧
    ∀ e ∈ b, (e.1 == k) = false := by
  obtain ⟨-,hb,hab⟩ := List.pairwise_append.mp h
  refine ⟨fun e he => key_ne (hab e he (j,u) (List.mem_cons_self ..)) hk,fun e he => key_ne (j := j) ?_ hk⟩
  rw [BEq.comm]
  exact (List.pairwise_cons.mp hb).1 e he

theorem lookup_mid (h : Distinct (a ++ (j,u) :: b)) (hk : j == k) : lookup (a ++ (j,u) :: b) k = some u := by
  have ha : (a.find? fun e => e.1 == k) = none := by
    rw [List.find?_eq_none]
    intro e he
    simp [(h.around hk).1 e he]
  simp [lookup,List.find?_append,ha,hk]

theorem insert_mid (h : Distinct (a ++ (j,u) :: b)) (hk : j == k) :
    insert (a ++ (j,u) :: b) k v = a ++ (j,v) :: b := by
  obtain ⟨ha,hb⟩ := h.around hk
  have hother {l : List (K × V)} (hl : ∀ e ∈ l, (e.1 == k) = false) :
      (l.map fun e => if e.1 == k then (e.1,v) else e) = l := by
    conv_rhs => rw [← List.map_id l]
    exact List.map_congr_left fun e he => by simp [hl e he]
  rw [insert,if_pos (by simp [hk]),List.map_append,List.map_cons,hother ha,hother hb,if_pos hk]

theorem erase_mid (h : Distinct (a ++ (j,u) :: b)) (hk : j == k) : erase (a ++ (j,u) :: b) k = a ++ b := by
  obtain ⟨ha,hb⟩ := h.around hk
  have hother {l : List (K × V)} (hl : ∀ e ∈ l, (e.1 == k) = false) : (l.filter fun e => !(e.1 == k)) = l :=
    List.filter_eq_self.mpr fun e he => by simp [hl e he]
  rw [erase,List.filter_append,List.filter_cons,hother ha,hother hb]
  simp [hk]

omit [EquivBEq K] in
theorem exists_mid (h : (lookup m k).isSome) : ∃ a j u b, m = a ++ (j,u) :: b ∧ j == k := by
  obtain ⟨⟨j,u⟩,he,hk⟩ := lookup_isSome_iff.mp h
  obtain ⟨a,b,rfl⟩ := List.append_of_mem he
  exact ⟨a,j,u,b,rfl,hk⟩

theorem lookup_perm (h : Distinct m) (hp : m.Perm l) : lookup m k = lookup l k := by
  cases hl : lookup m k with
  | none =>
    refine (lookup_none_iff.mpr fun e he => ?_).symm
    exact lookup_none_iff.mp hl e (hp.mem_iff.mpr he)
  | some v =>
    obtain ⟨a,j,u,b,rfl,hk⟩ := exists_mid (m := m) (k := k) (by rw [hl]; rfl)
    have hm : (j,u) ∈ l := hp.mem_iff.mp (by simp)
    obtain ⟨c,d,rfl⟩ := List.append_of_mem hm
    rw [lookup_mid (h.perm hp) hk,← hl,lookup_mid h hk]

theorem Distinct.insert (h : Distinct m) : Distinct (insert m k v) := by
  cases hl : lookup m k with
  | none =>
    rw [insert_absent hl]
    exact h.cons hl
  | some w =>
    obtain ⟨a,j,u,b,rfl,hk⟩ := exists_mid (m := m) (k := k) (by rw [hl]; rfl)
    rw [insert_mid h hk]
    rw [distinct_iff] at h ⊢
    simpa using h

omit [EquivBEq K] in
theorem Distinct.erase (h : Distinct m) : Distinct (erase m k) := h.filter _

/-! ### What is found afterwards -/

theorem lookup_insert_self (h : Distinct m) : lookup (insert m k v) k = some v := by
  cases hl : lookup m k with
  | none =>
    rw [insert_absent hl]
    simp [lookup]
  | some w =>
    obtain ⟨a,j,u,b,rfl,hk⟩ := exists_mid (m := m) (k := k) (by rw [hl]; rfl)
    have hd := h.insert (k := k) (v := v)
    rw [insert_mid h hk] at hd ⊢
    exact lookup_mid hd hk

theorem lookup_insert_ne (hk : (j == k) = false) : lookup (insert m k v) j = lookup m j := by
  unfold insert
  split
  · have hmap (m : List (K × V)) : lookup (m.map fun e => if e.1 == k then (e.1,v) else e) j = lookup m j := by
      induction m with
      | nil => rfl
      | cons e m ih =>
        by_cases he : e.1 == k
        · have hej : (e.1 == j) = false := by
            by_contra hc
            exact absurd (BEq.trans (BEq.symm (by simpa using hc)) he) (by simp [hk])
          simpa [lookup,he,hej] using ih
        · by_cases hej : e.1 == j
          · simp [lookup,he,hej]
          · simpa [lookup,he,hej] using ih
    exact hmap m
  · have hkj : (k == j) = false := by rw [BEq.comm]; exact hk
    simp [lookup,hkj]

omit [EquivBEq K] in
theorem lookup_erase_self : lookup (erase m k) k = none := by
  rw [lookup_none_iff]
  intro e he
  simpa using (List.mem_filter.mp he).2

omit [EquivBEq K] in
theorem lookup_erase_none (h : lookup m j = none) : lookup (erase m k) j = none := by
  rw [lookup_none_iff] at h ⊢
  exact fun e he => h e (List.mem_of_mem_filter he)

theorem lookup_erase_ne (hk : (j == k) = false) : lookup (erase m k) j = lookup m j := by
  induction m with
  | nil => rfl
  | cons e m ih =>
    by_cases he : e.1 == k
    · have hej : (e.1 == j) = false := by
        by_contra hc
        exact absurd (BEq.trans (BEq.symm (by simpa using hc)) he) (by simp [hk])
      simpa [erase,lookup,he,hej] using ih
    · by_cases hej : e.1 == j
      · simp [erase,lookup,he,hej]
      · simpa [erase,lookup,he,hej] using ih

omit [EquivBEq K] in
theorem lookup_insert_none (hk : (lookup m k).isSome) (h : lookup m j = none) : lookup (insert m k v) j = none := by
  have hany : (m.any fun e => e.1 == k) = true := by
    by_contra hc
    rw [any_false_iff.mp (by simpa using hc)] at hk
    cases hk
  rw [insert,if_pos hany,lookup_none_iff]
  rw [lookup_none_iff] at h
  intro e he
  obtain ⟨d,hd,rfl⟩ := List.mem_map.mp he
  split <;> exact h d hd

/-! ### Maps with the same entries -/

theorem lookup_of_mem (h : Distinct m) (he : e ∈ m) (hk : e.1 == k) : lookup m k = some e.2 := by
  obtain ⟨a,b,rfl⟩ := List.append_of_mem he
  exact lookup_mid h hk

theorem exists_of_lookup (h : Distinct m) (hv : lookup m k = some v) : ∃ j, (j,v) ∈ m ∧ j == k := by
  obtain ⟨e,he,hk⟩ := lookup_isSome_iff.mp (show (lookup m k).isSome by rw [hv]; rfl)
  obtain rfl : e.2 = v := Option.some.inj ((lookup_of_mem h he hk).symm.trans hv)
  exact ⟨e.1,he,hk⟩

theorem lookup_congr (h : Distinct m) (hk : j == k) : lookup m j = lookup m k := by
  cases hl : lookup m j with
  | some v =>
    obtain ⟨i,hi,hij⟩ := exists_of_lookup h hl
    exact (lookup_of_mem h hi (BEq.trans hij hk)).symm
  | none =>
    refine (lookup_none_iff.mpr fun e he => ?_).symm
    exact key_ne (lookup_none_iff.mp hl e he) hk

/-- Where one map has an entry for each entry of another of the same length, the two hold the same
entries in some order. -/
theorem exists_matching {R : V → V → Prop} (hm : Distinct m) (hl : Distinct l) (hlen : m.length = l.length)
    (h : ∀ e ∈ m, ∃ v, lookup l e.1 = some v ∧ R e.2 v) :
    ∃ l', l'.Perm l ∧ List.Forall₂ (fun e d => d.1 == e.1 ∧ R e.2 d.2) m l' := by
  induction m generalizing l with
  | nil =>
    obtain rfl := List.length_eq_zero_iff.mp hlen.symm
    exact ⟨[],List.Perm.nil,List.Forall₂.nil⟩
  | cons e m ih =>
    obtain ⟨v,hv,hr⟩ := h e (List.mem_cons_self ..)
    obtain ⟨a,j,u,b,rfl,hk⟩ := exists_mid (m := l) (k := e.1) (by rw [hv]; rfl)
    obtain rfl : u = v := Option.some.inj ((lookup_mid hl hk).symm.trans hv)
    obtain ⟨hne,hm⟩ := List.pairwise_cons.mp hm
    have herase := erase_mid hl hk
    obtain ⟨l',hp,hall⟩ := ih (l := a ++ b) hm (herase ▸ hl.erase) (by simp at hlen ⊢; omega) fun d hd => by
      obtain ⟨w,hw,hrw⟩ := h d (List.mem_cons_of_mem e hd)
      refine ⟨w,?_,hrw⟩
      rw [← herase,lookup_erase_ne]
      · exact hw
      · rw [BEq.comm]
        exact hne d hd
    exact ⟨(j,u) :: l',(hp.cons _).trans List.perm_middle.symm,List.Forall₂.cons ⟨hk,hr⟩ hall⟩

end Ens.Entries
