import Ens.Json.Value
import Ens.Logic.Entries
import Mathlib.Data.List.Induction
import Mathlib.Data.UInt

/-! # Equal JSON values hash equally

Equality and hash of an object leave the order of its members aside, and both go down into the
values. What is used of an object is that no key stands twice, which every edit keeps.
-/
namespace Ens.Json
open Entries

def textHash (t : Text) : UInt64 :=
  t.bytes.foldl (fun h b => (h ^^^ UInt64.ofNat b) * 1099511628211) 14695981039346656037

mutual

/-- An object looks up each of its keys, and no key stands twice, so what it finds under the key of
a member is that member. -/
def equals : Json → Json → Bool
  | .null, .null => true
  | .bool a, .bool b => a == b
  | .number a, .number b => a == b
  | .string a, .string b => a == b
  | .array xs, .array ys => xs.length == ys.length && sameElements xs ys
  | .object ms, .object ns => ms.length == ns.length && sameMembers ms ns
  | _, _ => false

def sameElements : List Json → List Json → Bool
  | x :: xs, y :: ys => equals x y && sameElements xs ys
  | _, _ => true

def sameMembers : Members → Members → Bool
  | [], _ => true
  | (key,mine) :: ms, ns =>
    match lookup ns key with
    | some theirs => equals mine theirs && sameMembers ms ns
    | none => false

end

mutual

def hash : Json → UInt64
  | .null => 7
  | .bool b => if b then 1 else 0
  | .number t => textHash t
  | .string t => textHash t
  | .array xs => elementsHash 3 xs
  | .object ms => membersHash 5 ms

def elementsHash (combined : UInt64) : List Json → UInt64
  | [] => combined
  | x :: xs => elementsHash (combined * 31 + hash x) xs

def membersHash (combined : UInt64) : Members → UInt64
  | [] => combined
  | (key,value) :: ms => membersHash (combined + textHash key * 31 + hash value) ms

end

inductive Edit
  | set (key : Text) (value : Json)
  | remove (key : Text)

def edit (ms : Members) : Edit → Members
  | .set key value => ms.set key value
  | .remove key => erase ms key

inductive Built : Json → Prop
  | null : Built .null
  | bool {b : Bool} : Built (.bool b)
  | number {text : Text} : Built (.number text)
  | string {text : Text} : Built (.string text)
  | array {elements : List Json} : (∀ v ∈ elements, Built v) → Built (.array elements)
  | object {edits : List Edit} : (∀ key v, .set key v ∈ edits → Built v) → Built (.object (edits.foldl edit []))

variable {ms ns : Members} {xs ys : List Json} {v w : Json} {key : Text} {c : UInt64}

theorem mem_set {m : Text × Json} (h : m ∈ ms.set key v) : m ∈ ms ∨ m.2 = v := by
  unfold Members.set at h
  split at h
  · obtain ⟨d,hd,rfl⟩ := List.mem_map.mp h
    split
    · exact .inr rfl
    · exact .inl hd
  · rcases List.mem_append.mp h with h | h
    · exact .inl h
    · rw [List.mem_singleton.mp h]
      exact .inr rfl

theorem set_distinct (h : Distinct ms) : Distinct (ms.set key v) := by
  rw [distinct_iff] at h ⊢
  unfold Members.set
  split
  · rw [List.map_map]
    have hsame : (Prod.fst ∘ fun m : Text × Json => if m.1 = key then (key,v) else m) = Prod.fst := by
      funext m
      by_cases hk : m.1 = key <;> simp [hk]
    rw [hsame]
    exact h
  · rename_i hnew
    rw [List.map_append,List.pairwise_append]
    refine ⟨h,List.pairwise_singleton ..,fun k hk j hj => ?_⟩
    obtain ⟨m,hm,rfl⟩ := List.mem_map.mp hk
    obtain rfl : j = key := by simpa using hj
    simp only [Members.contains,List.any_eq_true,decide_eq_true_eq,not_exists,not_and] at hnew
    simpa using hnew m hm

/-- No key stands twice in an object, and its values are built ones. -/
theorem edits_built {edits : List Edit} (h : ∀ key v, .set key v ∈ edits → Built v) :
    Distinct (edits.foldl edit []) ∧ ∀ m ∈ edits.foldl edit [], Built m.2 := by
  induction edits using List.reverseRecOn with
  | nil => exact ⟨distinct_nil,nofun⟩
  | append_singleton es e ih =>
    obtain ⟨hd,hb⟩ := ih fun key v hm => h key v (List.mem_append_left _ hm)
    rw [List.foldl_append]
    cases e with
    | set key v =>
      refine ⟨set_distinct hd,fun m hm => ?_⟩
      rcases mem_set hm with hm | hm
      · exact hb m hm
      · rw [hm]
        exact h key v (by simp)
    | remove key => exact ⟨hd.erase,fun m hm => hb m (List.mem_of_mem_filter hm)⟩

theorem sameMembers_iff : sameMembers ms ns = true ↔ ∀ m ∈ ms, ∃ w, lookup ns m.1 = some w ∧ equals m.2 w = true := by
  induction ms with
  | nil => simp [sameMembers]
  | cons m ms ih =>
    rw [sameMembers]
    cases hl : lookup ns m.1 with
    | none => simp [hl]
    | some w => simp [hl,ih]

/-- The hash of an object is a sum, so the order of the members does not matter. -/
theorem membersHash_eq : membersHash c ms = c + (ms.map fun m => textHash m.1 * 31 + hash m.2).sum := by
  induction ms generalizing c with
  | nil => simp [membersHash]
  | cons m ms ih =>
    rw [membersHash,ih,List.map_cons,List.sum_cons,UInt64.add_assoc,UInt64.add_assoc,UInt64.add_assoc]

theorem membersHash_perm (h : ms.Perm ns) : membersHash c ms = membersHash c ns := by
  rw [membersHash_eq,membersHash_eq]
  exact congrArg (c + ·) (h.map _).foldr_op_eq

theorem Built.elements (h : Built (.array xs)) : ∀ v ∈ xs, Built v := by
  cases h with
  | array hx => exact hx

theorem Built.members (h : Built (.object ms)) : Distinct ms ∧ ∀ m ∈ ms, Built m.2 := by
  generalize hv : Json.object ms = v at h
  cases h with
  | object he =>
    cases hv
    exact edits_built he
  | _ => cases hv

mutual

theorem hash_eq : ∀ {v w : Json}, Built v → Built w → equals v w = true → hash v = hash w
  | .null, .null, _, _, _ => rfl
  | .bool a, .bool b, _, _, h => by
    rw [beq_iff_eq.mp h]
  | .number a, .number b, _, _, h => by
    rw [beq_iff_eq.mp h]
  | .string a, .string b, _, _, h => by
    rw [beq_iff_eq.mp h]
  | .array xs, .array ys, hv, hw, h => by
    obtain ⟨hlen,hsame⟩ := Bool.and_eq_true_iff.mp h
    exact elementsHash_eq 3 hv.elements hw.elements (beq_iff_eq.mp hlen) hsame
  | .object ms, .object ns, hv, hw, h => by
    obtain ⟨hlen,hsame⟩ := Bool.and_eq_true_iff.mp h
    obtain ⟨hm,hmb⟩ := hv.members
    obtain ⟨hn,hnb⟩ := hw.members
    obtain ⟨ns',hperm,hall⟩ := exists_matching (R := fun v w => equals v w = true) hm hn (beq_iff_eq.mp hlen)
      (sameMembers_iff.mp hsame)
    exact (membersHash_matching 5 hmb (fun m h => hnb m (hperm.mem_iff.mp h)) hall).trans (membersHash_perm hperm)

theorem elementsHash_eq : ∀ {xs ys : List Json} (c : UInt64), (∀ v ∈ xs, Built v) → (∀ v ∈ ys, Built v) →
    xs.length = ys.length → sameElements xs ys = true → elementsHash c xs = elementsHash c ys
  | [], [], _, _, _, _, _ => rfl
  | x :: xs, y :: ys, c, hx, hy, hlen, h => by
    obtain ⟨hxy,hrest⟩ := Bool.and_eq_true_iff.mp h
    rw [elementsHash,elementsHash,hash_eq (hx x (List.mem_cons_self ..)) (hy y (List.mem_cons_self ..)) hxy]
    exact elementsHash_eq _ (fun v hv => hx v (List.mem_cons_of_mem x hv)) (fun v hv => hy v (List.mem_cons_of_mem y hv))
      (Nat.succ.inj hlen) hrest

theorem membersHash_matching : ∀ {ms ns : Members} (c : UInt64), (∀ m ∈ ms, Built m.2) → (∀ m ∈ ns, Built m.2) →
    List.Forall₂ (fun e d => d.1 == e.1 ∧ equals e.2 d.2 = true) ms ns → membersHash c ms = membersHash c ns
  | [], [], _, _, _, _ => rfl
  | (key,v) :: ms, (key',w) :: ns, c, hm, hn, h => by
    obtain ⟨⟨hkey,hvw⟩,hrest⟩ := List.forall₂_cons.mp h
    have hkey : key' = key := beq_iff_eq.mp hkey
    rw [membersHash,membersHash,hkey,hash_eq (hm (key,v) (List.mem_cons_self ..)) (hn (key',w) (List.mem_cons_self ..)) hvw]
    exact membersHash_matching _ (fun m h => hm m (List.mem_cons_of_mem _ h)) (fun m h => hn m (List.mem_cons_of_mem _ h)) hrest

end

/-! ### Every value equals itself -/

mutual

/-- A value equals itself, as two references to one value do without a look at what it holds. -/
theorem equals_self : ∀ {v : Json}, Built v → equals v v = true
  | .null, _ => rfl
  | .bool _, _ => beq_self_eq_true _
  | .number _, _ => beq_self_eq_true _
  | .string _, _ => beq_self_eq_true _
  | .array _, hv => Bool.and_eq_true_iff.mpr ⟨beq_self_eq_true _,sameElements_self hv.elements⟩
  | .object ms, hv => by
    obtain ⟨hd,hb⟩ := hv.members
    refine Bool.and_eq_true_iff.mpr ⟨beq_self_eq_true _,sameMembers_iff.mpr fun m hm => ⟨m.2,?_,values_self hb m hm⟩⟩
    obtain ⟨a,b,rfl⟩ := List.append_of_mem hm
    exact lookup_mid hd (beq_self_eq_true _)

theorem sameElements_self : ∀ {xs : List Json}, (∀ v ∈ xs, Built v) → sameElements xs xs = true
  | [], _ => rfl
  | x :: _, h => Bool.and_eq_true_iff.mpr
    ⟨equals_self (h x (List.mem_cons_self ..)),sameElements_self fun v hv => h v (List.mem_cons_of_mem x hv)⟩

theorem values_self : ∀ {ms : Members}, (∀ m ∈ ms, Built m.2) → ∀ m ∈ ms, equals m.2 m.2 = true
  | [], _, _, hm => nomatch hm
  | (key,v) :: ms, h, m, hm => by
    rcases List.mem_cons.mp hm with rfl | hm
    · exact equals_self (h (key,v) (List.mem_cons_self ..))
    · exact values_self (fun m hm => h m (List.mem_cons_of_mem _ hm)) m hm

end

end Ens.Json
