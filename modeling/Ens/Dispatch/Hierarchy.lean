import Mathlib.Data.List.Basic
import Mathlib.Data.Nat.Basic

/-! # Classes, interfaces and their methods

The class types of a program, declared ones and instantiations, with the searches up their base chains. A place is a class type with a
position in its method list, and places of one declaration are those an instantiation puts it at.
-/
namespace Ens.Dispatch

inductive MethodName
  | constructor
  | destructor
  | named (n : ℕ)
deriving DecidableEq

structure Method (T : Type) where
  name : MethodName
  parameterTypes : List T
  declaresThrows : Bool
  isPrivate : Bool
  isAbstract : Bool
  isOverride : Bool
deriving DecidableEq

namespace Method
variable {T : Type}

def isConstructor (m : Method T) : Bool := m.name = .constructor

def isDestructor (m : Method T) : Bool := m.name = .destructor

/-- What a search up a base chain for a method of the same name and parameter types compares. -/
def sameSignature [DecidableEq T] (m candidate : Method T) : Bool :=
  candidate.name = m.name && candidate.parameterTypes = m.parameterTypes

def erased (m : Method T) : Method Unit := { m with parameterTypes := m.parameterTypes.map fun _ => () }

end Method

structure Hierarchy (K J T : Type) where
  methodsOf : K → List (Method T)
  baseOf : K → Option K
  rank : K → ℕ
  rank_base : ∀ {k b}, baseOf k = some b → rank b < rank k
  declared : K → K
  declared_declared : ∀ k, declared (declared k) = declared k
  rank_declared : ∀ k, rank (declared k) = rank k
  methods_declared : ∀ k, (methodsOf (declared k)).map Method.erased = (methodsOf k).map Method.erased
  classes : List K
  declared_mem : ∀ k, declared k ∈ classes
  declared_of_mem : ∀ k ∈ classes, declared k = k
  interfacesOf : K → List J
  interfaceLadderOf : J → List J
  interfaceMethodsOf : J → List (Method T)

abbrev Place (K : Type) := K × ℕ

namespace Hierarchy
variable {K J T : Type} (h : Hierarchy K J T)

def climb : ℕ → K → List K
  | 0, _ => []
  | n + 1, k => match h.baseOf k with
    | none => []
    | some b => b :: climb n b

def bases (k : K) : List K := h.climb (h.rank k) k

def chain (k : K) : List K := k :: h.bases k

def methodAt (p : Place K) : Option (Method T) := (h.methodsOf p.1)[p.2]?

def declarationOf (p : Place K) : Place K := (h.declared p.1,p.2)

def ownWhere (question : Method T → Bool) (k : K) : Option (Place K) := ((h.methodsOf k).findIdx? question).map fun i => (k,i)

def nearest (question : Method T → Bool) (levels : List K) : Option (Place K) := levels.findSome? (h.ownWhere question)

def topmost (question : Method T → Bool) (levels : List K) (p : Place K) : Place K :=
  levels.foldl (fun root k => (h.ownWhere question k).getD root) p

def conformances (k : K) : List J := (h.chain k).flatMap fun level => (h.interfacesOf level).flatMap h.interfaceLadderOf

variable {h} {k b : K} {n : ℕ} {question : Method T → Bool} {levels : List K} {p q : Place K} {m : Method T}

theorem climb_of_le (hn : h.rank k ≤ n) : h.climb n k = h.bases k := by
  have hsame : ∀ (n l : ℕ) (k : K), h.rank k ≤ n → h.rank k ≤ l → h.climb n k = h.climb l k := by
    intro n
    induction n with
    | zero =>
      intro l k hn _
      cases l with
      | zero => rfl
      | succ l =>
        rw [climb,climb]
        cases hb : h.baseOf k with
        | none => rfl
        | some b => exact absurd (h.rank_base hb) (by omega)
    | succ n ih =>
      intro l k hn hl
      rw [climb]
      cases hb : h.baseOf k with
      | none => cases l <;> simp [climb,hb]
      | some b =>
        have hlt := h.rank_base hb
        cases l with
        | zero => omega
        | succ l =>
          rw [climb,hb]
          exact congrArg (b :: ·) (ih l b (by omega) (by omega))
  exact hsame n (h.rank k) k hn le_rfl

theorem bases_of_base (hb : h.baseOf k = some b) : h.bases k = h.chain b := by
  have hlt := h.rank_base hb
  obtain ⟨n,hn⟩ : ∃ n, h.rank k = n + 1 := ⟨h.rank k - 1,by omega⟩
  rw [bases,hn,climb,hb]
  exact congrArg (b :: ·) (climb_of_le (by omega))

theorem bases_of_root (hb : h.baseOf k = none) : h.bases k = [] := by
  rw [bases]
  cases h.rank k with
  | zero => rfl
  | succ n => rw [climb,hb]

theorem bases_split (hk : b ∈ h.bases k) : ∃ below, h.bases k = below ++ h.chain b := by
  induction hr : h.rank k using Nat.strong_induction_on generalizing k with
  | _ n ih =>
    cases hb : h.baseOf k with
    | none =>
      rw [bases_of_root hb] at hk
      cases hk
    | some c =>
      rw [bases_of_base hb] at hk ⊢
      rcases List.mem_cons.mp hk with rfl | hk
      · exact ⟨[],rfl⟩
      · obtain ⟨below,hs⟩ := ih _ (hr ▸ h.rank_base hb) hk rfl
        exact ⟨c :: below,by rw [chain,hs]; rfl⟩

theorem chain_split (hk : b ∈ h.chain k) : ∃ below, h.chain k = below ++ h.chain b := by
  rcases List.mem_cons.mp hk with rfl | hk
  · exact ⟨[],rfl⟩
  · obtain ⟨below,hs⟩ := bases_split hk
    exact ⟨k :: below,by rw [chain,hs]; rfl⟩

theorem rank_lt_of_mem_bases (hk : b ∈ h.bases k) : h.rank b < h.rank k := by
  induction hr : h.rank k using Nat.strong_induction_on generalizing k with
  | _ n ih =>
    cases hb : h.baseOf k with
    | none =>
      rw [bases_of_root hb] at hk
      cases hk
    | some c =>
      have hlt := h.rank_base hb
      rw [bases_of_base hb] at hk
      rcases List.mem_cons.mp hk with rfl | hk
      · exact hr ▸ hlt
      · exact lt_trans (ih _ (hr ▸ hlt) hk rfl) (hr ▸ hlt)

theorem not_mem_bases : k ∉ h.bases k := fun hk => lt_irrefl _ (rank_lt_of_mem_bases hk)

theorem chain_suffix {above below : List K} (hs : h.chain k = above ++ b :: below) : b :: below = h.chain b := by
  induction above generalizing k with
  | nil =>
    obtain ⟨rfl,-⟩ := List.cons.inj (show k :: h.bases k = b :: below from hs)
    exact hs.symm
  | cons a above ih =>
    obtain ⟨-,hs⟩ := List.cons.inj (show k :: h.bases k = a :: (above ++ b :: below) from hs)
    cases hb : h.baseOf k with
    | none =>
      rw [bases_of_root hb] at hs
      exact absurd hs (by simp)
    | some c =>
      rw [bases_of_base hb] at hs
      exact ih hs

theorem chain_pairwise (k : K) : (h.chain k).Pairwise fun a b => h.rank b < h.rank a := by
  induction hr : h.rank k using Nat.strong_induction_on generalizing k with
  | _ n ih =>
    refine List.pairwise_cons.mpr ⟨fun b hb => rank_lt_of_mem_bases hb,?_⟩
    cases hb : h.baseOf k with
    | none =>
      rw [bases_of_root hb]
      exact List.Pairwise.nil
    | some c =>
      rw [bases_of_base hb]
      exact ih _ (hr ▸ h.rank_base hb) c rfl

/-! ### Searches -/

theorem ownWhere_some (hp : h.ownWhere question k = some p) : p.1 = k ∧ ∃ m, h.methodAt p = some m ∧ question m = true := by
  obtain ⟨i,hi,rfl⟩ := Option.map_eq_some_iff.mp hp
  obtain ⟨hlt,hq,-⟩ := List.findIdx?_eq_some_iff_getElem.mp hi
  exact ⟨rfl,_,List.getElem?_eq_getElem hlt,hq⟩

theorem ownWhere_isSome (hm : h.methodAt p = some m) (hq : question m = true) : ∃ q, h.ownWhere question p.1 = some q := by
  cases ho : h.ownWhere question p.1 with
  | some q => exact ⟨q,rfl⟩
  | none =>
    rw [ownWhere,Option.map_eq_none_iff,List.findIdx?_eq_none_iff] at ho
    have hno := ho m (List.mem_of_getElem? hm)
    exact absurd (hno.symm.trans hq) Bool.false_ne_true

theorem nearest_some (hp : h.nearest question levels = some p) : p.1 ∈ levels ∧ ∃ m, h.methodAt p = some m ∧ question m = true := by
  obtain ⟨k,hk,ho⟩ := List.exists_of_findSome?_eq_some hp
  obtain ⟨rfl,hm⟩ := ownWhere_some ho
  exact ⟨hk,hm⟩

theorem nearest_isSome (question : Method T → Bool) (hp : p.1 ∈ levels) (hm : h.methodAt p = some m) (hq : question m = true) :
    ∃ q, h.nearest question levels = some q := by
  cases hn : h.nearest question levels with
  | some q => exact ⟨q,rfl⟩
  | none =>
    obtain ⟨q,ho⟩ := ownWhere_isSome hm hq
    exact absurd ((List.findSome?_eq_none_iff.mp hn _ hp).symm.trans ho) (by simp)

theorem topmost_append (below above : List K) :
    h.topmost question (below ++ above) p = h.topmost question above (h.topmost question below p) := List.foldl_append

theorem topmost_eq_or (question : Method T → Bool) (levels : List K) (p : Place K) : h.topmost question levels p = p ∨
    (h.topmost question levels p).1 ∈ levels ∧ ∃ m, h.methodAt (h.topmost question levels p) = some m ∧ question m = true := by
  induction levels generalizing p with
  | nil => exact .inl rfl
  | cons k levels ih =>
    rw [topmost,List.foldl_cons]
    rcases ih ((h.ownWhere question k).getD p) with hs | ⟨hm,hq⟩
    · cases ho : h.ownWhere question k with
      | none =>
        rw [ho] at hs
        exact .inl hs
      | some q =>
        rw [ho] at hs
        rw [show levels.foldl (fun root k => (h.ownWhere question k).getD root) ((some q).getD p) = q from hs]
        obtain ⟨rfl,hm⟩ := ownWhere_some ho
        exact .inr ⟨List.mem_cons_self,hm⟩
    · exact .inr ⟨List.mem_cons_of_mem _ hm,hq⟩

theorem topmost_cons_of_some (ho : h.ownWhere question k = some q) : h.topmost question (k :: levels) p = h.topmost question levels q := by
  rw [topmost,List.foldl_cons,ho]
  rfl

/-! ### Declarations -/

theorem erased_declarationOf (p : Place K) : (h.methodAt (h.declarationOf p)).map Method.erased = (h.methodAt p).map Method.erased := by
  rw [methodAt,methodAt,declarationOf,← List.getElem?_map,← List.getElem?_map,h.methods_declared]

theorem erased_of_declarationOf_eq (hd : h.declarationOf p = h.declarationOf q) :
    (h.methodAt p).map Method.erased = (h.methodAt q).map Method.erased := by
  rw [← erased_declarationOf p,hd,erased_declarationOf]

end Hierarchy
end Ens.Dispatch
