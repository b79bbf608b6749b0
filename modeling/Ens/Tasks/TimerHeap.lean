import Ens.Logic.Heap
import Mathlib.Data.List.Sort

/-! # The heap of timers

The nearest deadline is on top. A new timer goes up from the end, and where the top is taken the last timer goes down from its place.
-/
namespace Ens.Tasks.Events
open Heap

structure Timer where
  id : ℕ
  deadline : ℤ
  deriving DecidableEq

def swap (heap : List Timer) (first second : ℕ) : Option (List Timer) := do
  let a ← heap[first]?
  let b ← heap[second]?
  some (exchanged heap first second a b)

def siftUp : ℕ → List Timer → ℕ → Option (List Timer)
  | 0, _, _ => none
  | fuel + 1, heap, index =>
    if 0 < index then do
      let a ← heap[(index - 1) / 2]?
      let b ← heap[index]?
      if a.deadline ≤ b.deadline then some heap
      else
        let heap ← swap heap ((index - 1) / 2) index
        siftUp fuel heap ((index - 1) / 2)
    else some heap

def nearer (heap : List Timer) (child smallest : ℕ) : Option ℕ :=
  if child < heap.length then do
    let a ← heap[child]?
    let b ← heap[smallest]?
    some (if a.deadline < b.deadline then child else smallest)
  else some smallest

def siftDown : ℕ → List Timer → ℕ → Option (List Timer)
  | 0, _, _ => none
  | fuel + 1, heap, index => do
    let smallest ← nearer heap (index * 2 + 1) index
    let smallest ← nearer heap (index * 2 + 2) smallest
    if smallest = index then some heap
    else
      let heap ← swap heap index smallest
      siftDown fuel heap smallest

def pushed (heap : List Timer) (timer : Timer) : Option (List Timer × Bool) := do
  let heap ← siftUp (heap.length + 1) (heap ++ [timer]) heap.length
  some (heap,heap[0]? = some timer)

def popTop (heap : List Timer) : Option (List Timer) := do
  let last ← heap.getLast?
  match heap.dropLast with
  | [] => some []
  | _ :: rest => siftDown (heap.length + 1) (last :: rest) 0

def takeDue (now : ℤ) : ℕ → List Timer → Option (List Timer × List Timer)
  | 0, _ => none
  | fuel + 1, heap =>
    match heap with
    | [] => some ([],[])
    | top :: rest =>
      if top.deadline ≤ now then do
        let heap ← popTop (top :: rest)
        let (due,heap) ← takeDue now fuel heap
        some (top :: due,heap)
      else some ([],top :: rest)

/-- No later than another timer. -/
def NoLater (a b : Timer) : Prop := a.deadline ≤ b.deadline

abbrev Heaped (heap : List Timer) : Prop := Ordered NoLater heap

variable {heap xs ys : List Timer} {timer v : Timer} {index fuel : ℕ} {now : ℤ}

theorem NoLater.trans (a b c : Timer) (h : NoLater a b) (h' : NoLater b c) : NoLater a c := le_trans h h'

theorem swap_eq {i j : ℕ} {a b : Timer} (ha : xs[i]? = some a) (hb : xs[j]? = some b) : swap xs i j = some (exchanged xs i j a b) := by
  rw [swap,ha,hb]
  rfl

theorem exchanged_comm {i j : ℕ} (hne : i ≠ j) (a b : Timer) : exchanged xs i j a b = exchanged xs j i b a := by
  rw [exchanged,exchanged,List.set_comm _ _ hne]

/-- A timer that is out of order with its parent at most goes up to where it is in order. -/
theorem siftUp_spec (h : OrderedUp NoLater xs index) (hindex : index < xs.length) (hfuel : index < fuel) :
    ∃ ys, siftUp fuel xs index = some ys ∧ ys.Perm xs ∧ Heaped ys := by
  induction fuel generalizing xs index with
  | zero => omega
  | succ fuel ih =>
    rw [siftUp]
    by_cases hpos : 0 < index
    · have hparent : (index - 1) / 2 < index := by omega
      have hb : xs[index]? = some xs[index] := List.getElem?_eq_getElem hindex
      have ha : xs[(index - 1) / 2]? = some xs[(index - 1) / 2] := List.getElem?_eq_getElem (hparent.trans hindex)
      rw [if_pos hpos,ha,hb]
      dsimp only [Option.bind_eq_bind,Option.bind_some]
      by_cases hle : xs[(index - 1) / 2].deadline ≤ xs[index].deadline
      · rw [if_pos hle]
        refine ⟨xs,rfl,.refl _,h.ordered fun a b ha' hb' => ?_⟩
        cases ha.symm.trans ha'
        cases hb.symm.trans hb'
        exact hle
      · rw [if_neg hle,swap_eq ha hb,Option.bind_some,exchanged_comm hparent.ne]
        have hup : OrderedUp NoLater (exchanged xs index ((index - 1) / 2) xs[index] xs[(index - 1) / 2]) ((index - 1) / 2) :=
          h.step NoLater.trans hpos hb ha (not_le.mp hle).le
        have hperm := exchanged_perm hb ha
        obtain ⟨ys,hsift,hys,hordered⟩ := ih hup (by rw [hperm.length_eq]; exact hparent.trans hindex) (by omega)
        exact ⟨ys,hsift,hys.trans hperm,hordered⟩
    · rw [if_neg hpos]
      obtain rfl : index = 0 := by omega
      exact ⟨xs,rfl,.refl _,h.ordered_zero⟩

/-- The nearer one of a child and of what was nearest before it. -/
theorem nearer_spec (child : ℕ) {smallest : ℕ} (hs : smallest < xs.length) : ∃ c, nearer xs child smallest = some c ∧ c < xs.length ∧
    (c = smallest ∨ c = child ∧ Above (fun a b => a.deadline < b.deadline) xs c smallest) ∧ Above NoLater xs c smallest ∧
    Above NoLater xs c child := by
  have hb : xs[smallest]? = some xs[smallest] := List.getElem?_eq_getElem hs
  have hself : ∀ i, Above NoLater xs i i := fun i a b ha hb => by
    cases ha.symm.trans hb
    exact le_refl _
  rw [nearer]
  by_cases hc : child < xs.length
  · have ha : xs[child]? = some xs[child] := List.getElem?_eq_getElem hc
    rw [if_pos hc,ha,hb]
    dsimp only [Option.bind_eq_bind,Option.bind_some]
    by_cases hlt : xs[child].deadline < xs[smallest].deadline
    · rw [if_pos hlt]
      refine ⟨child,rfl,hc,Or.inr ⟨rfl,fun a b ha' hb' => ?_⟩,fun a b ha' hb' => ?_,hself child⟩
      · cases ha.symm.trans ha'
        cases hb.symm.trans hb'
        exact hlt
      · cases ha.symm.trans ha'
        cases hb.symm.trans hb'
        exact hlt.le
    · rw [if_neg hlt]
      refine ⟨smallest,rfl,hs,Or.inl rfl,hself smallest,fun a b ha' hb' => ?_⟩
      cases hb.symm.trans ha'
      cases ha.symm.trans hb'
      exact not_lt.mp hlt
  · rw [if_neg hc]
    refine ⟨smallest,rfl,hs,Or.inl rfl,hself smallest,fun a b _ hb' => ?_⟩
    exact absurd (List.getElem?_eq_some_iff.mp hb').1 hc

theorem above_trans {i j k : ℕ} (hj : j < xs.length) (h : Above NoLater xs i j) (h' : Above NoLater xs j k) : Above NoLater xs i k :=
  fun a b ha hb => NoLater.trans a xs[j] b (h a _ ha (List.getElem?_eq_getElem hj)) (h' _ b (List.getElem?_eq_getElem hj) hb)

/-- A timer that is out of order with its children at most goes down to where it is in order. -/
theorem siftDown_spec (fuel : ℕ) (h : OrderedDown NoLater xs index) (hindex : index < xs.length) (hfuel : xs.length ≤ index + fuel) :
    ∃ ys, siftDown (fuel + 1) xs index = some ys ∧ ys.Perm xs ∧ Heaped ys := by
  induction fuel generalizing xs index with
  | zero => omega
  | succ fuel ih =>
    obtain ⟨first,hfirst,hlt,hcase,habove,hleft⟩ := nearer_spec (index * 2 + 1) hindex
    obtain ⟨second,hsecond,hlt',hcase',habove',hright⟩ := nearer_spec (index * 2 + 2) hlt
    rw [siftDown,hfirst]
    dsimp only [Option.bind_eq_bind,Option.bind_some]
    rw [hsecond,Option.bind_some]
    have hchildren : ∀ i, 0 < i → parent i = index → Above NoLater xs second i := by
      intro i hi hparent
      rw [parent] at hparent
      have hi : i = index * 2 + 1 ∨ i = index * 2 + 2 := by omega
      rcases hi with rfl | rfl
      · exact above_trans hlt habove' hleft
      · exact hright
    by_cases hstay : second = index
    · rw [if_pos hstay]
      exact ⟨xs,rfl,.refl _,h.ordered fun i hi hparent => hstay ▸ hchildren i hi hparent⟩
    · rw [if_neg hstay]
      have ha : xs[index]? = some xs[index] := List.getElem?_eq_getElem hindex
      have hb : xs[second]? = some xs[second] := List.getElem?_eq_getElem hlt'
      have hchild : second = index * 2 + 1 ∨ second = index * 2 + 2 := by
        rcases hcase' with rfl | ⟨rfl,-⟩
        · rcases hcase with rfl | ⟨rfl,-⟩
          · exact absurd rfl hstay
          · exact Or.inl rfl
        · exact Or.inr rfl
      have hsmaller : Smaller NoLater xs index second := ⟨by omega,by rw [parent]; omega,hchildren⟩
      have hle : NoLater xs[second] xs[index] := above_trans hlt habove' habove _ _ hb ha
      have hdown := h.step hsmaller ha hb hle
      have hperm := exchanged_perm ha hb
      obtain ⟨ys,hsift,hys,hordered⟩ := ih hdown (by rw [hperm.length_eq]; exact hlt') (by rw [hperm.length_eq]; omega)
      rw [swap_eq ha hb,Option.bind_some]
      exact ⟨ys,hsift,hys.trans hperm,hordered⟩

theorem Heaped.first {top : Timer} {rest : List Timer} (h : Heaped (top :: rest)) : ∀ t ∈ rest, NoLater top t := fun t ht =>
  Ordered.first h NoLater.trans (fun a => le_refl a.deadline) rfl t (List.mem_cons_of_mem _ ht)

/-- A timer that is pushed and not on top is no nearer than the one that is. -/
theorem pushed_spec (h : Heaped heap) (timer : Timer) : ∃ ys nearest, pushed heap timer = some (ys,nearest) ∧ ys.Perm (timer :: heap) ∧
    Heaped ys ∧ (nearest = false → ∃ t ∈ heap, NoLater t timer) := by
  have hlast : heap.length < (heap ++ [timer]).length := by
    rw [List.length_append]
    exact Nat.lt_succ_self _
  obtain ⟨ys,hsift,hperm,hordered⟩ := siftUp_spec (h.append timer) hlast (Nat.lt_succ_self _)
  have hperm' := hperm.trans (List.perm_append_singleton timer heap)
  rw [pushed,hsift]
  refine ⟨ys,_,rfl,hperm',hordered,fun hnot => ?_⟩
  cases ys with
  | nil => exact absurd hperm'.length_eq (by simp)
  | cons top rest =>
    have hne : top ≠ timer := fun heq => of_decide_eq_false hnot (congrArg some heq)
    have htop : top ∈ heap := (List.mem_cons.mp (hperm'.subset List.mem_cons_self)).resolve_left hne
    have htimer : timer ∈ rest := (List.mem_cons.mp (hperm'.symm.subset List.mem_cons_self)).resolve_left (Ne.symm hne)
    exact ⟨top,htop,hordered.first timer htimer⟩

theorem popTop_spec {top : Timer} {rest : List Timer} (h : Heaped (top :: rest)) :
    ∃ ys, popTop (top :: rest) = some ys ∧ ys.Perm rest ∧ Heaped ys := by
  rcases List.eq_nil_or_concat rest with rfl | ⟨zs,last,hrest⟩
  · exact ⟨[],rfl,.refl _,fun i _ a b ha => by simp at ha⟩
  · rw [List.concat_eq_append] at hrest
    subst hrest
    have hget : (top :: (zs ++ [last])).getLast? = some last := by
      rw [← List.cons_append]
      exact List.getLast?_concat
    have hdrop : (top :: (zs ++ [last])).dropLast = top :: zs := by
      rw [← List.cons_append,List.dropLast_concat]
    have hlength : (top :: (zs ++ [last])).length = zs.length + 2 := by simp
    obtain ⟨ys,hsift,hperm,hordered⟩ := siftDown_spec (zs.length + 2) h.replace (Nat.succ_pos _)
      (by rw [List.length_cons]; omega)
    refine ⟨ys,?_,hperm.trans (List.perm_append_singleton last zs).symm,hordered⟩
    rw [popTop,hget,hdrop,hlength]
    exact hsift

/-- Just the timers whose deadlines have passed are taken, the nearest first, and the others stay in order. -/
theorem takeDue_spec (now : ℤ) (h : Heaped heap) (hfuel : heap.length < fuel) : ∃ due rest, takeDue now fuel heap = some (due,rest) ∧
    (due ++ rest).Perm heap ∧ Heaped rest ∧ (∀ t ∈ due, t.deadline ≤ now) ∧ (∀ t ∈ rest, now < t.deadline) ∧ due.Pairwise NoLater := by
  induction fuel generalizing heap with
  | zero => omega
  | succ fuel ih =>
    cases heap with
    | nil => exact ⟨[],[],rfl,.refl _,h,fun _ ht => absurd ht List.not_mem_nil,fun _ ht => absurd ht List.not_mem_nil,.nil⟩
    | cons top others =>
      have hfirst := h.first
      rw [takeDue]
      by_cases hdue : top.deadline ≤ now
      · obtain ⟨ys,hpop,hperm,hordered⟩ := popTop_spec h
        obtain ⟨due,rest,htake,hparts,hrest,hpassed,hleft,hsorted⟩ := ih hordered (by rw [hperm.length_eq]; exact Nat.lt_of_succ_lt_succ hfuel)
        rw [if_pos hdue,hpop]
        dsimp only [Option.bind_eq_bind,Option.bind_some]
        rw [htake]
        refine ⟨top :: due,rest,rfl,(hparts.trans hperm).cons top,hrest,?_,hleft,List.pairwise_cons.mpr ⟨fun t ht => ?_,hsorted⟩⟩
        · intro t ht
          rcases List.mem_cons.mp ht with rfl | ht
          · exact hdue
          · exact hpassed t ht
        · exact hfirst t ((hparts.trans hperm).subset (List.mem_append_left _ ht))
      · rw [if_neg hdue]
        refine ⟨[],_,rfl,.refl _,h,fun _ ht => absurd ht List.not_mem_nil,fun t ht => ?_,.nil⟩
        rcases List.mem_cons.mp ht with rfl | ht
        · exact not_le.mp hdue
        · exact (not_le.mp hdue).trans_le (hfirst t ht)

end Ens.Tasks.Events
