import Ens.Collections.TreeSpec

/-! # A sorted map is a sorted association list

Every operation answers as it does on the list of the entries in order, and keeps the tree
searchable, balanced and counted. So does every run of operations.
-/
namespace Ens.Collections
open Assoc Loop
variable {K V : Type} {order : K → K → ℤ} {m : SortedMap K V} {l : List (K × V)}

inductive Op (K V : Type)
  | set (key : K) (value : V)
  | remove (key : K)
  | removeWhere (test : K → V → Bool)
  | getOrInsert (key : K) (make : Unit → V)
  | clear
  | copy

inductive Answer (V : Type)
  | nothing
  | removed (any : Bool)
  | removedCount (n : ℤ)
  | value (v : V)

def SortedMap.step (m : SortedMap K V) : Op K V → Except Stop (SortedMap K V × Answer V)
  | .set key value => .ok (m.set key value,.nothing)
  | .remove key =>
    let (m,any) := m.remove key
    .ok (m,.removed any)
  | .removeWhere test => do
    let (m,n) ← m.removeWhere test
    .ok (m,.removedCount n)
  | .getOrInsert key make =>
    let (m,v) := m.getOrInsert key make
    .ok (m,.value v)
  | .clear => .ok (m.clear,.nothing)
  | .copy => .ok (m.copy,.nothing)

def SortedMap.run (m : SortedMap K V) : List (Op K V) → Except Stop (SortedMap K V × List (Answer V))
  | [] => .ok (m,[])
  | op :: ops => do
    let (m,answer) ← m.step op
    let (m,answers) ← m.run ops
    .ok (m,answer :: answers)

def reference (order : K → K → ℤ) (l : List (K × V)) : Op K V → List (K × V) × Answer V
  | .set key value => (set order key value l,.nothing)
  | .remove key => (erase order l key,.removed (contains order l key))
  | .removeWhere test => (l.filter fun e => !test e.1 e.2,.removedCount (l.filter fun e => test e.1 e.2).length)
  | .getOrInsert key make =>
    match get order l key with
    | some value => (l,.value value)
    | none => (set order key (make ()) l,.value (make ()))
  | .clear => ([],.nothing)
  | .copy => (l,.nothing)

def referenceRun (order : K → K → ℤ) (l : List (K × V)) : List (Op K V) → List (K × V) × List (Answer V)
  | [] => (l,[])
  | op :: ops =>
    let (l,answer) := reference order l op
    let (l,answers) := referenceRun order l ops
    (l,answer :: answers)

structure Holds (m : SortedMap K V) (order : K → K → ℤ) (l : List (K × V)) : Prop where
  ordered : m.order = order
  entries : m.root.toList = l
  sorted : Sorted order l
  balanced : m.root.Balanced
  count : m.count = l.length

/-! ### What a map answers -/

theorem Holds.get (h : Holds m order l) (hc : Compares order) (key : K) : m.get key = Assoc.get order l key := by
  rw [SortedMap.get,h.ordered,Tree.findNode_get hc (h.entries ▸ h.sorted),h.entries]

theorem Holds.contains (h : Holds m order l) (hc : Compares order) (key : K) :
    m.contains key = Assoc.contains order l key := by
  rw [Assoc.contains,← h.get hc key,SortedMap.contains,SortedMap.get,Option.isSome_map]

theorem Holds.walk (h : Holds m order l) : m.entries = .ok l := by
  have hfold (l seen : List (K × V)) : l.foldl (fun seen entry => seen ++ [entry]) seen = seen ++ l := by
    induction l generalizing seen with
    | nil => simp
    | cons e l ih => rw [List.foldl_cons,ih,List.append_assoc,List.singleton_append]
  rw [SortedMap.entries,SortedMap.walked_eq,hfold,h.entries,List.nil_append]

theorem Holds.firstKey (h : Holds m order l) :
    m.firstKey = match l.head? with | some e => .ok e.1 | none => .error .abort := by
  rw [SortedMap.firstKey,← h.entries]
  cases m.root with
  | nil => rfl
  | node left key value right height => rw [Tree.toList,Tree.leftmost_head]

theorem Holds.lastKey (h : Holds m order l) :
    m.lastKey = match l.getLast? with | some e => .ok e.1 | none => .error .abort := by
  rw [SortedMap.lastKey,← h.entries]
  cases m.root with
  | nil => rfl
  | node left key value right height => rw [Tree.toList,Tree.rightmost_getLast]

/-! ### The operations -/

theorem withTree_holds (h : Holds m order l) {xs : List (K × V)} {r : Tree K V × Tree.Tally}
    (hr : Tree.Replaces m.root ⟨m.count,m.changes⟩ xs r) (hs : Sorted order xs) : Holds (m.withTree r) order xs := by
  refine ⟨h.ordered,hr.entries,hs,hr.balanced,?_⟩
  have := hr.count
  rw [h.entries] at this
  have := h.count
  simp only [SortedMap.withTree] at *
  omega

theorem set_holds (h : Holds m order l) (hc : Compares order) (key : K) (value : V) :
    Holds (m.set key value) order (set order key value l) := by
  have hr : Tree.Replaces m.root ⟨m.count,m.changes⟩ (set order key value m.root.toList)
      (m.root.inserted order key value ⟨m.count,m.changes⟩) :=
    Tree.inserted_replaces hc (h.entries ▸ h.sorted) h.balanced
  rw [h.entries] at hr
  rw [SortedMap.set,h.ordered]
  exact withTree_holds h hr (set_sorted hc h.sorted)

theorem erase_shorter (order : K → K → ℤ) (l : List (K × V)) (key : K) :
    (erase order l key).length < l.length ↔ contains order l key = true := by
  rw [erase,List.length_filter_lt_length_iff_exists,contains,Assoc.get,Option.isSome_map,List.find?_isSome]
  simp

theorem remove_holds (h : Holds m order l) (hc : Compares order) (key : K) :
    Holds (m.remove key).1 order (erase order l key) ∧ (m.remove key).2 = contains order l key := by
  have hr : Tree.Replaces m.root ⟨m.count,m.changes⟩ (erase order m.root.toList key)
      (m.root.without order key ⟨m.count,m.changes⟩) :=
    Tree.without_replaces hc (h.entries ▸ h.sorted) h.balanced
  rw [h.entries] at hr
  rw [SortedMap.remove,h.ordered]
  have hm := withTree_holds h hr (filter_sorted h.sorted _)
  refine ⟨hm,?_⟩
  dsimp only
  rw [hm.count,h.count,Bool.eq_iff_iff,decide_eq_true_iff,Int.ofNat_lt,erase_shorter]

theorem removeWhere_holds (h : Holds m order l) (test : K → V → Bool) :
    ∃ m', m.removeWhere test = .ok (m',((l.filter fun e => test e.1 e.2).length : ℤ)) ∧
      Holds m' order (l.filter fun e => !test e.1 e.2) := by
  have hfold (l kept : List (K × V)) : l.foldl (fun kept entry => if test entry.1 entry.2 then kept else kept ++ [entry]) kept
      = kept ++ l.filter fun e => !test e.1 e.2 := by
    induction l generalizing kept with
    | nil => simp
    | cons e l ih => cases ht : test e.1 e.2 <;> simp [ht,ih]
  have hlen : (l.filter fun e => test e.1 e.2).length + (l.filter fun e => !test e.1 e.2).length = l.length := by
    rw [← List.countP_eq_length_filter,← List.countP_eq_length_filter,List.length_eq_countP_add_countP (fun e => test e.1 e.2)]
    simp
  rw [SortedMap.removeWhere,SortedMap.walked_eq,hfold,h.entries,List.nil_append,ok_bind]
  dsimp only
  rw [h.count]
  set kept := l.filter fun e => !test e.1 e.2
  have hsorted : Sorted order kept := filter_sorted h.sorted _
  by_cases hpos : (0 : ℤ) < l.length - kept.length
  · have hlast : ((kept.length : ℤ) - 1) + 1 - 0 = kept.length := by omega
    have hin : (kept.length : ℤ) - 1 < kept.length := by omega
    obtain ⟨t,ht,htl,htb,-⟩ := Tree.treeOf_builds kept.length (le_refl 0) hlast hin
    rw [if_pos hpos,ht,ok_bind]
    have hcount : (l.length : ℤ) - kept.length = (l.filter fun e => test e.1 e.2).length := by omega
    rw [hcount]
    exact ⟨_,rfl,h.ordered,by simpa using htl,hsorted,htb,rfl⟩
  · have hall : kept = l := List.filter_eq_self.mpr (List.length_filter_eq_length_iff.mp (show kept.length = l.length by omega))
    have hcount : (l.length : ℤ) - kept.length = (l.filter fun e => test e.1 e.2).length := by omega
    rw [if_neg hpos,hcount]
    exact ⟨m,rfl,hall ▸ h⟩

theorem getOrInsert_holds (h : Holds m order l) (hc : Compares order) (key : K) (make : Unit → V) :
    Holds (m.getOrInsert key make).1 order (reference order l (.getOrInsert key make)).1 ∧
      Answer.value (m.getOrInsert key make).2 = (reference order l (.getOrInsert key make)).2 := by
  have hget := h.get hc key
  rw [SortedMap.get] at hget
  rw [SortedMap.getOrInsert,reference,← hget]
  cases m.root.findNode m.order key with
  | some node => exact ⟨h,rfl⟩
  | none => exact ⟨set_holds h hc key (make ()),rfl⟩

theorem clear_holds (h : Holds m order l) : Holds m.clear order [] := by
  rw [SortedMap.clear]
  by_cases h0 : m.count = 0
  · rw [if_pos h0]
    have hnil : l = [] := List.eq_nil_of_length_eq_zero (by have := h.count; omega)
    exact hnil ▸ h
  · rw [if_neg h0]
    exact ⟨h.ordered,rfl,List.Pairwise.nil,trivial,rfl⟩

theorem copy_holds (h : Holds m order l) : Holds m.copy order l :=
  ⟨h.ordered,by rw [SortedMap.copy,Tree.copyOf_eq,h.entries],h.sorted,by rw [SortedMap.copy,Tree.copyOf_eq]; exact h.balanced,
    h.count⟩

theorem step_holds (h : Holds m order l) (hc : Compares order) (op : Op K V) :
    ∃ m', m.step op = .ok (m',(reference order l op).2) ∧ Holds m' order (reference order l op).1 := by
  cases op with
  | set key value => exact ⟨_,rfl,set_holds h hc key value⟩
  | remove key =>
    obtain ⟨h1,h2⟩ := remove_holds h hc key
    exact ⟨_,by simp only [SortedMap.step,reference,← h2],h1⟩
  | removeWhere test =>
    obtain ⟨m',h1,h2⟩ := removeWhere_holds h test
    exact ⟨m',by rw [SortedMap.step,h1]; rfl,h2⟩
  | getOrInsert key make =>
    obtain ⟨h1,h2⟩ := getOrInsert_holds h hc key make
    exact ⟨_,by simp only [SortedMap.step,← h2],h1⟩
  | clear => exact ⟨_,rfl,clear_holds h⟩
  | copy => exact ⟨_,rfl,copy_holds h⟩

theorem run_holds (h : Holds m order l) (hc : Compares order) (ops : List (Op K V)) :
    ∃ m', m.run ops = .ok (m',(referenceRun order l ops).2) ∧ Holds m' order (referenceRun order l ops).1 := by
  induction ops generalizing m l with
  | nil => exact ⟨m,rfl,h⟩
  | cons op ops ih =>
    obtain ⟨m1,h1,h2⟩ := step_holds h hc op
    obtain ⟨m2,h3,h4⟩ := ih h2
    exact ⟨m2,by rw [SortedMap.run,h1,ok_bind]; simp only [h3,ok_bind]; rfl,h4⟩

structure Agrees (m : SortedMap K V) (order : K → K → ℤ) (l : List (K × V)) : Prop where
  sorted : Sorted order l
  search : m.root.Search order
  balanced : m.root.Balanced
  count : m.count = m.root.size
  length : m.length = l.length
  get : ∀ key, m.get key = Assoc.get order l key
  contains : ∀ key, m.contains key = Assoc.contains order l key
  firstKey : m.firstKey = match l.head? with | some e => .ok e.1 | none => .error .abort
  lastKey : m.lastKey = match l.getLast? with | some e => .ok e.1 | none => .error .abort
  walk : m.entries = .ok l

theorem Holds.agrees (h : Holds m order l) (hc : Compares order) : Agrees m order l where
  sorted := h.sorted
  search := (Tree.search_iff hc m.root).mpr (h.entries ▸ h.sorted)
  balanced := h.balanced
  count := by rw [h.count,← Tree.toList_length,h.entries]
  length := h.count
  get := h.get hc
  contains := h.contains hc
  firstKey := h.firstKey
  lastKey := h.lastKey
  walk := h.walk

/-- Any run of operations on a new map answers as on a sorted association list, and leaves the
map agreeing with the list. -/
theorem sortedMap_refines (order : K → K → ℤ) (hc : Compares order) (ops : List (Op K V)) :
    ∃ m, ({ order := order } : SortedMap K V).run ops = .ok (m,(referenceRun order [] ops).2) ∧
      Agrees m order (referenceRun order [] ops).1 := by
  have hnew : Holds ({ order := order } : SortedMap K V) order [] := ⟨rfl,rfl,List.Pairwise.nil,trivial,rfl⟩
  obtain ⟨m,hrun,h⟩ := run_holds hnew hc ops
  exact ⟨m,hrun,h.agrees hc⟩

theorem compares_sub : Compares fun a b : ℤ => a - b where
  swap a b := by rw [← Int.sign_neg,Int.neg_sub]
  trans a b c h1 h2 := by omega

/-- Three keys, of which the middle one goes. -/
theorem sortedMap_refines_three : ∃ m : SortedMap ℤ ℕ,
    ({ order := fun a b => a - b } : SortedMap ℤ ℕ).run [.set 1 10,.set 2 20,.set 3 30,.remove 2] =
      .ok (m,[.nothing,.nothing,.nothing,.removed true]) ∧ m.entries = .ok [(1,10),(3,30)] := by
  obtain ⟨m,h1,h2⟩ :=
    sortedMap_refines (fun a b : ℤ => a - b) compares_sub [.set 1 10,.set 2 20,.set 3 30,.remove 2]
  exact ⟨m,h1,h2.walk⟩

end Ens.Collections
