import Ens.Number.Shift

/-! # The digits in their array

The digits live in an array that a shift rewrites in place. An index outside the array stops the program here, and so does a product, a sum or a
digit that its type cannot hold. Neither comes about, and a shift does to the digits what it does to a list of them.
-/
set_option linter.all false
namespace Ens.Number
open Loop Decimal

structure Buffer where
  held : List ℕ
  count : ℕ
  point : ℤ
  truncated : Bool

namespace Buffer

def read (held : List ℕ) (i : ℕ) : Except Stop ℕ :=
  match held[i]? with
  | some digit => .ok digit
  | none => .error .abort

def store (held : List ℕ) (i value : ℕ) : Except Stop (List ℕ) :=
  if i < held.length ∧ value < 2 ^ 8 then .ok (held.set i value) else .error .abort

/-- A result that has to fit 64 bits. -/
def ulong (value : ℕ) : Except Stop ℕ := if value < 2 ^ 64 then .ok value else .error .abort

def dropLast (b : Buffer) (howMany : ℕ) : Except Stop Buffer := do
  let keep := b.count - howMany
  let truncated ← (List.range (b.count - keep)).foldlM (fun truncated i => do
    let digit ← read b.held (keep + i)
    .ok (truncated || decide (digit ≠ 0))) b.truncated
  .ok { b with count := keep, truncated := truncated }

def leading (held : List ℕ) : ℕ → ℕ → Except Stop ℕ
  | 0, lead => .ok lead
  | left + 1, lead => do
    let digit ← read held lead
    if digit = 0 then leading held left (lead + 1) else .ok lead

def moveDown (held : List ℕ) (lead howMany : ℕ) : Except Stop (List ℕ) :=
  if 0 < lead then
    (List.range howMany).foldlM (fun held i => do
      let digit ← read held (lead + i)
      store held i digit) held
  else .ok held

def trailing (held : List ℕ) : ℕ → Except Stop ℕ
  | 0 => .ok 0
  | count + 1 => do
    let digit ← read held count
    if digit = 0 then trailing held count else .ok (count + 1)

def normalize (b : Buffer) : Except Stop Buffer := do
  let lead ← leading b.held b.count 0
  let held ← moveDown b.held lead (b.count - lead)
  let count ← trailing held (b.count - lead)
  if count = 0 then .ok ⟨held,0,0,false⟩ else .ok ⟨held,count,b.point - lead,b.truncated⟩

def moveUp : ℕ → List ℕ → Except Stop (List ℕ)
  | 0, held => .ok held
  | i + 1, held => do
    let digit ← read held i
    let held ← store held (i + Bounds.lead) digit
    moveUp i held

def multiply (bits : ℕ) : ℕ → List ℕ → ℕ → Except Stop (List ℕ)
  | 0, held, _ => .ok held
  | i + 1, held, carry => do
    let digit ← read held i
    let product ← ulong (digit <<< bits)
    let scaled ← ulong (product + carry)
    let held ← store held i (scaled % 10)
    multiply bits i held (scaled / 10)

def makeRoom (b : Buffer) : Except Stop Buffer :=
  if Bounds.capacity < b.count + Bounds.lead then b.dropLast (b.count + Bounds.lead - Bounds.capacity) else .ok b

/-- Multiplies by `2 ^ bits`. Carries land in front of the first digit, so the digits move to make room first. -/
def shiftLeft (b : Buffer) (bits : ℕ) : Except Stop Buffer := do
  let b ← b.makeRoom
  let held ← moveUp b.count b.held
  let held ← (List.range Bounds.lead).foldlM (fun held i => store held i 0) held
  let held ← multiply bits (b.count + Bounds.lead) held 0
  normalize ⟨held,b.count + Bounds.lead,b.point + Bounds.lead,b.truncated⟩

structure Division where
  held : List ℕ
  remainder : ℕ := 0
  written : ℕ := 0
  dropped : ℕ := 0
  truncated : Bool

def Division.value (s : Division) (digit : ℕ) : Except Stop ℕ := do
  let tens ← ulong (s.remainder * 10)
  ulong (tens + digit)

def Division.write (s : Division) (quotient : ℕ) : Except Stop Division := do
  let held ← store s.held s.written quotient
  .ok { s with held := held, written := s.written + 1 }

def Division.digit (bits mask : ℕ) (s : Division) (i : ℕ) : Except Stop Division := do
  let digit ← read s.held i
  let value ← s.value digit
  let s := { s with remainder := value &&& mask }
  let quotient := value >>> bits
  if quotient = 0 ∧ s.written = 0 then .ok { s with dropped := s.dropped + 1 }
  else if s.written < Bounds.capacity then s.write quotient
  else if quotient ≠ 0 then .ok { s with truncated := true }
  else .ok s

def Division.tail (bits mask : ℕ) (s : Division) : Except Stop (Flow Division Division) :=
  if s.remainder = 0 then .ok (.done s)
  else do
    let value ← s.value 0
    let s := { s with remainder := value &&& mask }
    let quotient := value >>> bits
    if quotient = 0 ∧ s.written = 0 then .ok (.next { s with dropped := s.dropped + 1 })
    else if Bounds.capacity ≤ s.written then
      .ok (.done (if quotient ≠ 0 ∨ s.remainder ≠ 0 then { s with truncated := true } else s))
    else do
      let s ← s.write quotient
      .ok (.next s)

/-- Divides by `2 ^ bits`. The quotient is shorter at the front and longer at the end. -/
def shiftRight (b : Buffer) (bits : ℕ) : Except Stop Buffer := do
  let power ← ulong (1 <<< bits)
  let mask := power - 1
  let s ← (List.range b.count).foldlM (Division.digit bits mask) { held := b.held, truncated := b.truncated }
  let s ← loop .endless (Division.tail bits mask) (bits + 1) s
  normalize ⟨s.held,s.written,b.point - s.dropped,s.truncated⟩

/-! ### What an array holds -/

def digits (b : Buffer) : Digits := ⟨b.held.take b.count,b.point,b.truncated⟩

structure Holds (b : Buffer) : Prop where
  size : b.held.length = Bounds.capacity
  fits : b.count ≤ Bounds.capacity
  small : AreDigits b.digits.held

variable {b : Buffer} {held l r : List ℕ} {bits i n : ℕ}

theorem read_append (l : List ℕ) (x : ℕ) (r : List ℕ) : read (l ++ x :: r) l.length = .ok x := by
  simp [read]

theorem store_append (l : List ℕ) (x y : ℕ) (r : List ℕ) (hy : y < 10) : store (l ++ x :: r) l.length y = .ok (l ++ y :: r) := by
  rw [store,if_pos ⟨by simp,by omega⟩]
  simp

theorem ulong_ok {x : ℕ} (h : x < 2 ^ 64) : ulong x = .ok x := if_pos h

/-! ### Leaving no zero at the ends -/

theorem leading_ok (p l r : List ℕ) :
    leading (p ++ l ++ r) l.length p.length = .ok (p.length + (l.takeWhile fun x => decide (x = 0)).length) := by
  induction l generalizing p with
  | nil => rfl
  | cons x l ih =>
    have hread : read (p ++ x :: l ++ r) p.length = .ok x := by
      rw [List.append_assoc,List.cons_append]
      exact read_append p x (l ++ r)
    rw [List.length_cons,leading,hread,ok_bind]
    by_cases hx : x = 0
    · have hnext := ih (p ++ [x])
      rw [List.append_assoc p,List.singleton_append,List.length_append,List.length_singleton] at hnext
      rw [if_pos hx,hnext,List.takeWhile_cons_of_pos (by simpa using hx),List.length_cons]
      congr 1
      omega
    · rw [if_neg hx,List.takeWhile_cons_of_neg (by simpa using hx)]
      rfl

theorem trailing_ok (l r : List ℕ) : trailing (l ++ r) l.length = .ok (l.rdropWhile fun x => decide (x = 0)).length := by
  induction l using List.reverseRecOn generalizing r with
  | nil => rfl
  | append_singleton l x ih =>
    rw [List.length_append,List.length_singleton,trailing,List.append_assoc,List.singleton_append,read_append,ok_bind,List.rdropWhile_concat]
    by_cases hx : x = 0
    · rw [if_pos hx,ih,if_pos (by simpa using hx)]
    · rw [if_neg hx,if_neg (by simpa using hx)]
      simp

theorem moveDown_ok {lead howMany : ℕ} (h : lead + howMany ≤ held.length) (hsmall : ∀ x ∈ held.take (lead + howMany), x < 10) :
    ∃ held', moveDown held lead howMany = .ok held' ∧ held'.length = held.length ∧ held'.take howMany = (held.drop lead).take howMany := by
  unfold moveDown
  split
  · have hrun : ∃ held', (List.range howMany).foldlM (fun held i => do
        let digit ← read held (lead + i)
        store held i digit) held = .ok held' ∧ held'.length = held.length ∧
        held'.take howMany = (held.drop lead).take howMany ∧ held'.drop howMany = held.drop howMany := by
      refine foldlM_range (I := fun i (held' : List ℕ) => held'.length = held.length ∧ held'.take i = (held.drop lead).take i ∧
        held'.drop i = held.drop i) (fun i hi held' ⟨hlen,htake,hdrop⟩ => ?_) ⟨rfl,by simp,rfl⟩
      have hin : lead + i < held.length := by omega
      have hget : held'[lead + i]? = some held[lead + i] := by
        have hsame := congrArg (fun l : List ℕ => l[lead]?) hdrop
        simp only [List.getElem?_drop] at hsame
        rw [Nat.add_comm i lead] at hsame
        rw [hsame,List.getElem?_eq_getElem hin]
      have hdigit : held[lead + i] < 10 := hsmall _ (List.mem_take_iff_getElem.2 ⟨lead + i,by omega,rfl⟩)
      refine ⟨held'.set i held[lead + i],?_,by rw [List.length_set,hlen],?_,?_⟩
      · rw [read,hget]
        dsimp only
        rw [ok_bind,store,if_pos ⟨by omega,by omega⟩]
      · rw [List.take_succ_eq_append_getElem (by rw [List.length_set]; omega),List.take_set_of_le (Nat.le_refl _),htake,
          List.take_succ_eq_append_getElem (by rw [List.length_drop]; omega)]
        simp
      · rw [List.drop_set_of_lt (by omega)]
        have hmore := congrArg (List.drop 1) hdrop
        simpa only [List.drop_drop] using hmore
    obtain ⟨held',hm,hlen,htake,-⟩ := hrun
    exact ⟨held',hm,hlen,htake⟩
  · rename_i hlead
    obtain rfl : lead = 0 := by omega
    exact ⟨held,rfl,rfl,rfl⟩

theorem normalize_ok (h : Holds b) : ∃ b', normalize b = .ok b' ∧ Holds b' ∧ b'.digits = b.digits.normalize := by
  have hfits : b.count ≤ b.held.length := h.size ▸ h.fits
  have hsplit : b.held = b.held.take b.count ++ b.held.drop b.count := (List.take_append_drop _ _).symm
  have hlen : (b.held.take b.count).length = b.count := by rw [List.length_take]; omega
  set live := b.held.take b.count with hlive
  have hlead : leading b.held b.count 0 = .ok (live.takeWhile fun x => decide (x = 0)).length := by
    have hlead := leading_ok [] live (b.held.drop b.count)
    rw [List.nil_append,← hsplit,hlen,List.length_nil,Nat.zero_add] at hlead
    exact hlead
  set lead := (live.takeWhile fun x => decide (x = 0)).length
  have hle : lead ≤ b.count := hlen ▸ (List.takeWhile_prefix _).length_le
  have hdrop : live.dropWhile (fun x => decide (x = 0)) = live.drop lead := by
    conv_rhs => rw [← List.takeWhile_append_dropWhile (p := fun x => decide (x = 0)) (l := live)]
    rw [List.drop_left]
  obtain ⟨held',hm,hl,ht⟩ := moveDown_ok (show lead + (b.count - lead) ≤ b.held.length by omega) (by
    rw [Nat.add_sub_cancel' hle]
    exact h.small)
  rw [← List.drop_take,← hlive] at ht
  set core := (live.dropWhile fun x => decide (x = 0)).rdropWhile fun x => decide (x = 0) with hcore
  have hfront : core <+: live.drop lead := by
    rw [hcore,hdrop]
    exact List.rdropWhile_prefix _ _
  have htrail : trailing held' (b.count - lead) = .ok core.length := by
    have htrail := trailing_ok (live.drop lead) (held'.drop (b.count - lead))
    rw [← ht,List.take_append_drop,ht,List.length_drop,hlen,← hdrop] at htrail
    exact htrail
  have hshort : core.length ≤ b.count - lead := by
    have := hfront.length_le
    rwa [List.length_drop,hlen] at this
  have htake : held'.take core.length = core := by
    have hsame : (held'.take (b.count - lead)).take core.length = core := by
      rw [ht]
      exact List.prefix_iff_eq_take.1 hfront |>.symm
    rwa [List.take_take,Nat.min_eq_left hshort] at hsame
  have hnormal : b.digits.normalize = if core = [] then ⟨[],0,false⟩ else ⟨core,b.point - lead,b.truncated⟩ := rfl
  have hsmall : AreDigits core := fun x hx => h.small x (List.mem_of_mem_drop (hfront.subset hx))
  rw [normalize,hlead,ok_bind,hm,ok_bind,htrail,ok_bind,hnormal]
  by_cases hempty : core = []
  · rw [if_pos hempty,if_pos (by rw [hempty]; rfl)]
    refine ⟨_,rfl,⟨hl.trans h.size,Nat.zero_le _,by simp [digits,AreDigits]⟩,by simp [digits]⟩
  · rw [if_neg hempty,if_neg (fun hzero => hempty (List.length_eq_zero_iff.1 hzero))]
    have hfit : core.length ≤ Bounds.capacity := hshort.trans ((Nat.sub_le _ _).trans h.fits)
    refine ⟨_,rfl,⟨hl.trans h.size,hfit,by rw [digits,htake]; exact hsmall⟩,by rw [digits,htake]⟩

/-! ### Multiplying -/

theorem dropLast_ok (h : Holds b) (n : ℕ) : ∃ b', dropLast b n = .ok b' ∧ Holds b' ∧ b'.digits = b.digits.dropLast n ∧ b'.count = b.count - n := by
  have hfits : b.count ≤ b.held.length := h.size ▸ h.fits
  have hlen : (b.held.take b.count).length = b.count := by rw [List.length_take]; omega
  set keep := b.count - n with hkeep
  have hfold : ∃ t, (List.range (b.count - keep)).foldlM (fun truncated i => do
      let digit ← read b.held (keep + i)
      .ok (truncated || decide (digit ≠ 0))) b.truncated = .ok t ∧
      t = (b.truncated || (((b.held.take b.count).drop keep).take (b.count - keep)).any fun x => decide (x ≠ 0)) := by
    refine foldlM_range (I := fun i (t : Bool) => t = (b.truncated || (((b.held.take b.count).drop keep).take i).any fun x => decide (x ≠ 0)))
      (fun i hi t ht => ?_) (by simp)
    have hin : keep + i < b.held.length := by omega
    have hin' : i < ((b.held.take b.count).drop keep).length := by rw [List.length_drop,hlen]; omega
    refine ⟨_,by rw [read,List.getElem?_eq_getElem hin,ok_bind],?_⟩
    rw [ht,List.take_succ_eq_append_getElem hin',List.any_append,Bool.or_assoc]
    simp
  obtain ⟨t,hrun,ht⟩ := hfold
  have hall : ((b.held.take b.count).drop keep).take (b.count - keep) = (b.held.take b.count).drop keep := by
    refine List.take_of_length_le ?_
    rw [List.length_drop,hlen]
  have htake : b.held.take keep = (b.held.take b.count).take keep := by rw [List.take_take,Nat.min_eq_left (Nat.sub_le _ _)]
  have hdigits : b.digits.dropLast n =
      ⟨(b.held.take b.count).take keep,b.point,b.truncated || ((b.held.take b.count).drop keep).any fun x => decide (x ≠ 0)⟩ := by
    simp only [Digits.dropLast,Digits.count,digits,hlen]
    rfl
  rw [hall] at ht
  refine ⟨{ b with count := keep, truncated := t },by rw [dropLast,hrun,ok_bind],⟨h.size,(Nat.sub_le _ _).trans h.fits,?_⟩,?_,rfl⟩
  · intro x hx
    simp only [digits,htake] at hx
    exact h.small x (List.mem_of_mem_take hx)
  · rw [hdigits,ht,← htake]
    rfl

theorem moveUp_ok (l r : List ℕ) (hl : AreDigits l) (hr : Bounds.lead ≤ r.length) :
    moveUp l.length (l ++ r) = .ok ((l ++ r).take Bounds.lead ++ l ++ r.drop Bounds.lead) := by
  induction l using List.reverseRecOn generalizing r with
  | nil => simp [moveUp]
  | append_singleton l x ih =>
    have hx : x < 10 := hl x (by simp)
    have hset : (l ++ x :: r).set (l.length + Bounds.lead) x = l ++ (x :: r).set Bounds.lead x := by
      rw [List.set_append_right _ _ (by omega),Nat.add_sub_cancel_left]
    have hstore : store (l ++ x :: r) (l.length + Bounds.lead) x = .ok (l ++ (x :: r).set Bounds.lead x) := by
      rw [store,if_pos ⟨by simp only [List.length_append,List.length_cons]; omega,by omega⟩,hset]
    have hlong : Bounds.lead ≤ ((x :: r).set Bounds.lead x).length := by rw [List.length_set,List.length_cons]; omega
    have hfront : (l ++ (x :: r).set Bounds.lead x).take Bounds.lead = (l ++ x :: r).take Bounds.lead := by
      rw [← hset,List.take_set_of_le (by omega)]
    have hback : ((x :: r).set Bounds.lead x).drop Bounds.lead = x :: r.drop Bounds.lead := by
      rw [List.set_eq_take_append_cons_drop,if_pos (by rw [List.length_cons]; omega),
        List.drop_append_of_le_length (by rw [List.length_take,List.length_cons]; omega),List.drop_take,Nat.sub_self]
      rfl
    rw [List.length_append,List.length_singleton,moveUp,List.append_assoc,List.singleton_append,read_append,ok_bind,hstore,ok_bind,
      ih _ (fun z hz => hl z (by simp [hz])) hlong,hfront,hback]
    simp

theorem clear_ok (l r : List ℕ) (hl : l.length = Bounds.lead) :
    (List.range Bounds.lead).foldlM (fun held i => store held i 0) (l ++ r) = .ok (List.replicate Bounds.lead 0 ++ r) := by
  have hrun : ∃ held, (List.range Bounds.lead).foldlM (fun held i => store held i 0) (l ++ r) = .ok held ∧
      held = List.replicate Bounds.lead 0 ++ l.drop Bounds.lead ++ r := by
    refine foldlM_range (I := fun i (held : List ℕ) => held = List.replicate i 0 ++ l.drop i ++ r) (fun i hi held h => ?_) (by simp)
    have hlt : i < l.length := by omega
    have hlen : (List.replicate i 0).length = i := List.length_replicate
    rw [List.drop_eq_getElem_cons hlt,List.append_assoc,List.cons_append] at h
    refine ⟨List.replicate i 0 ++ 0 :: (l.drop (i + 1) ++ r),?_,?_⟩
    · rw [h]
      have hstore := store_append (List.replicate i 0) l[i] 0 (l.drop (i + 1) ++ r) (by omega)
      rwa [hlen] at hstore
    · rw [List.replicate_succ',List.append_assoc,List.append_assoc]
      rfl
  obtain ⟨held,hrun,rfl⟩ := hrun
  rw [hrun,← hl,List.drop_length,List.append_nil]

def carryStep (bits digit : ℕ) (s : ℕ × List ℕ) : ℕ × List ℕ := (((digit <<< bits) + s.1) / 10,((digit <<< bits) + s.1) % 10 :: s.2)

theorem carried_eq (bits : ℕ) (l : List ℕ) : Digits.carried bits l = l.foldr (carryStep bits) (0,[]) := by
  induction l with
  | nil => rfl
  | cons x l ih => rw [Digits.carried,ih,List.foldr_cons]; rfl

theorem carryStep_behind (bits : ℕ) (l r : List ℕ) (c : ℕ) : (l.foldr (carryStep bits) (c,r)).1 = (l.foldr (carryStep bits) (c,[])).1 ∧
    (l.foldr (carryStep bits) (c,r)).2 = (l.foldr (carryStep bits) (c,[])).2 ++ r := by
  induction l with
  | nil => exact ⟨rfl,rfl⟩
  | cons x l ih =>
    simp only [List.foldr_cons,carryStep]
    rw [ih.1,ih.2]
    exact ⟨rfl,rfl⟩

theorem multiply_ok (hbits : bits ≤ Bounds.shiftBits) (l r : List ℕ) (hl : AreDigits l) {carry : ℕ} (hc : carry ≤ 2 ^ bits) :
    multiply bits l.length (l ++ r) carry = .ok (l.foldr (carryStep bits) (carry,r)).2 := by
  induction l using List.reverseRecOn generalizing r carry with
  | nil => rfl
  | append_singleton l x ih =>
    have hx : x < 10 := hl x (by simp)
    have hpow : 2 ^ bits ≤ 2 ^ 50 := Nat.pow_le_pow_right (by omega) hbits
    have hproduct : x * 2 ^ bits ≤ 9 * 2 ^ bits := Nat.mul_le_mul_right _ (by omega)
    have hrest := @ih ((x * 2 ^ bits + carry) % 10 :: r) (fun z hz => hl z (by simp [hz])) ((x * 2 ^ bits + carry) / 10) (by omega)
    rw [List.length_append,List.length_singleton,multiply,List.append_assoc,List.singleton_append,read_append,ok_bind,Nat.shiftLeft_eq,
      ulong_ok (by omega),ok_bind,ulong_ok (by omega),ok_bind,store_append _ _ _ _ (Nat.mod_lt _ (by omega)),ok_bind,hrest,List.foldr_append,
      List.foldr_cons,List.foldr_nil,carryStep,Nat.shiftLeft_eq]

theorem makeRoom_ok (h : Holds b) : ∃ b', makeRoom b = .ok b' ∧ Holds b' ∧ b'.count + Bounds.lead ≤ Bounds.capacity ∧
    b'.digits = if Bounds.capacity < b.digits.count + Bounds.lead then b.digits.dropLast
        (b.digits.count + Bounds.lead - Bounds.capacity) else b.digits := by
  have hcount : b.digits.count = b.count := by
    rw [Digits.count,digits,List.length_take,Nat.min_eq_left (h.size ▸ h.fits)]
  unfold makeRoom
  rw [hcount]
  split
  · rename_i hfull
    obtain ⟨b',hrun,hb,hdigits,hkept⟩ := dropLast_ok h (b.count + Bounds.lead - Bounds.capacity)
    refine ⟨b',hrun,hb,?_,hdigits⟩
    simp only [Bounds.lead,Bounds.capacity] at hfull hkept ⊢
    omega
  · rename_i hroom
    exact ⟨b,rfl,h,by omega,rfl⟩

theorem shiftLeft_ok (h : Holds b) (hbits : bits ≤ Bounds.shiftBits) :
    ∃ b', shiftLeft b bits = .ok b' ∧ Holds b' ∧ b'.digits = b.digits.shiftLeft bits := by
  obtain ⟨b₁,hroom,h₁,hfit,hdigits⟩ := makeRoom_ok h
  have hlen : (b₁.held.take b₁.count).length = b₁.count := by
    rw [List.length_take,h₁.size]
    exact Nat.min_eq_left h₁.fits
  set l := b₁.held.take b₁.count with hl
  set r := b₁.held.drop b₁.count with hr
  have hheld : b₁.held = l ++ r := (List.take_append_drop _ _).symm
  have hrlen : Bounds.lead ≤ r.length := by
    rw [hr,List.length_drop,h₁.size]
    omega
  have hfront : ((l ++ r).take Bounds.lead).length = Bounds.lead := by
    rw [List.length_take,List.length_append]
    omega
  have hzeros : AreDigits (List.replicate Bounds.lead 0 ++ l) := by
    intro x hx
    rcases List.mem_append.1 hx with hx | hx
    · rw [List.eq_of_mem_replicate hx]
      omega
    · exact h₁.small x hx
  have hall : (List.replicate Bounds.lead 0 ++ l).length = b₁.count + Bounds.lead := by
    rw [List.length_append,List.length_replicate,hlen,Nat.add_comm]
  have hmultiply := multiply_ok hbits (List.replicate Bounds.lead 0 ++ l) (r.drop Bounds.lead) hzeros (Nat.zero_le _)
  rw [hall,(carryStep_behind bits _ _ 0).2,← carried_eq] at hmultiply
  obtain ⟨hsmall,hout,-⟩ := Digits.carried_spec bits (l := List.replicate Bounds.lead 0 ++ l)
  set out := (Digits.carried bits (List.replicate Bounds.lead 0 ++ l)).2
  rw [hall] at hout
  have hnormal : Holds ⟨out ++ r.drop Bounds.lead,b₁.count + Bounds.lead,b₁.point + Bounds.lead,b₁.truncated⟩ := by
    refine ⟨?_,hfit,?_⟩
    · have hsize := h₁.size
      rw [hheld,List.length_append,hlen] at hsize
      simp only [List.length_append,List.length_drop,hout]
      omega
    · simp only [digits,← hout,List.take_left]
      exact hsmall
  obtain ⟨b',hrun,hb',hdigits'⟩ := normalize_ok hnormal
  refine ⟨b',?_,hb',?_⟩
  · have hup := moveUp_ok l r h₁.small hrlen
    rw [hlen] at hup
    rw [shiftLeft,hroom,ok_bind,hheld,hup,ok_bind,List.append_assoc,clear_ok _ _ hfront,ok_bind,← List.append_assoc,hmultiply,ok_bind,hrun]
  · have hb₁ : b₁.digits = ⟨l,b₁.point,b₁.truncated⟩ := rfl
    rw [hdigits',Digits.shiftLeft,← hdigits,hb₁]
    simp only [digits,← hout,List.take_left]
    rfl

/-! ### Dividing -/

structure Keeps (s : Division) (v : Digits.Division) : Prop where
  size : s.held.length = Bounds.capacity
  written : s.written = v.written.length
  front : s.held.take s.written = v.written
  remainder : s.remainder = v.remainder
  dropped : s.dropped = v.dropped
  truncated : s.truncated = v.truncated

variable {s : Division} {v : Digits.Division} {x : ℕ}

theorem value_ok (hbits : bits ≤ Bounds.shiftBits) (hr : s.remainder < 2 ^ bits) (hx : x < 10) : s.value x = .ok (s.remainder * 10 + x) := by
  have hpow : 2 ^ bits ≤ 2 ^ 50 := Nat.pow_le_pow_right (by omega) hbits
  rw [Division.value,ulong_ok (by omega),ok_bind,ulong_ok (by omega)]

theorem quotient_lt (hr : n < 2 ^ bits) (hx : x < 10) : (n * 10 + x) >>> bits < 10 := by
  rw [Nat.shiftRight_eq_div_pow,Nat.div_lt_iff_lt_mul (Nat.two_pow_pos bits)]
  omega

theorem Keeps.no_digit (h : Keeps s v) : s.written = 0 ↔ v.written = [] := by
  rw [h.written,List.length_eq_zero_iff]

theorem Keeps.write (h : Keeps s v) {q : ℕ} (hroom : s.written < Bounds.capacity) (hq : q < 10) :
    ∃ s', s.write q = .ok s' ∧ Keeps s' { v with written := v.written ++ [q] } ∧ s'.written = s.written + 1 ∧
      ∀ j, s.written < j → s'.held.drop j = s.held.drop j := by
  have hin : s.written < s.held.length := h.size ▸ hroom
  refine ⟨{ s with held := s.held.set s.written q, written := s.written + 1 },?_,⟨by simpa using h.size,by simp [h.written],?_,
    h.remainder,h.dropped,h.truncated⟩,rfl,fun j hj => List.drop_set_of_lt hj⟩
  · rw [Division.write,store,if_pos ⟨hin,by omega⟩]
    rfl
  · simp only
    rw [List.take_succ_eq_append_getElem (by rw [List.length_set]; exact hin),List.take_set_of_le (Nat.le_refl _),h.front]
    simp

theorem digit_ok (h : Keeps s v) (hbits : bits ≤ Bounds.shiftBits) (hr : v.remainder < 2 ^ bits) (hx : x < 10) (hread : read s.held i = .ok x)
    (hw : s.written ≤ i) : ∃ s', Division.digit bits (2 ^ bits - 1) s i = .ok s' ∧ Keeps s' (v.digit bits x) ∧
      s'.held.drop (i + 1) = s.held.drop (i + 1) ∧ s'.written ≤ i + 1 := by
  have hq := quotient_lt hr hx
  rw [Division.digit,hread,ok_bind,value_ok hbits (h.remainder ▸ hr) hx,ok_bind,h.remainder,Nat.and_two_pow_sub_one_eq_mod,Digits.Division.digit]
  dsimp only
  have hk : Keeps { s with remainder := (v.remainder * 10 + x) % 2 ^ bits } { v with remainder := (v.remainder * 10 + x) % 2 ^ bits } :=
    ⟨h.size,h.written,h.front,rfl,h.dropped,h.truncated⟩
  by_cases hskip : (v.remainder * 10 + x) >>> bits = 0 ∧ v.written = []
  · rw [if_pos ⟨hskip.1,h.no_digit.2 hskip.2⟩,if_pos hskip]
    exact ⟨_,rfl,⟨h.size,h.written,h.front,rfl,congrArg (· + 1) h.dropped,h.truncated⟩,rfl,by simp only; omega⟩
  rw [if_neg (fun hno => hskip ⟨hno.1,h.no_digit.1 hno.2⟩),if_neg hskip]
  by_cases hroom : v.written.length < Bounds.capacity
  · rw [if_pos (h.written ▸ hroom),if_pos hroom]
    obtain ⟨s',hrun,hk',hone,hbehind⟩ := hk.write (h.written ▸ hroom) hq
    exact ⟨s',hrun,hk',hbehind _ (by simp only; omega),by simp only at hone; omega⟩
  rw [if_neg (h.written ▸ hroom),if_neg hroom]
  split
  · exact ⟨_,rfl,⟨h.size,h.written,h.front,rfl,h.dropped,rfl⟩,rfl,by simp only; omega⟩
  · exact ⟨_,rfl,hk,rfl,by simp only; omega⟩

theorem digits_ok (h : Holds b) (hbits : bits ≤ Bounds.shiftBits) :
    ∃ s, (List.range b.count).foldlM (Division.digit bits (2 ^ bits - 1)) { held := b.held, truncated := b.truncated } = .ok s ∧
      Keeps s (b.digits.held.foldl (Digits.Division.digit bits) { truncated := b.truncated }) := by
  have hlen : b.digits.held.length = b.count := by
    rw [digits,List.length_take,h.size]
    exact Nat.min_eq_left h.fits
  have hrun : ∃ s, (List.range b.count).foldlM (Division.digit bits (2 ^ bits - 1)) { held := b.held, truncated := b.truncated } = .ok s ∧
      Keeps s ((b.digits.held.take b.count).foldl (Digits.Division.digit bits) { truncated := b.truncated }) ∧
        s.held.drop b.count = b.held.drop b.count ∧ s.written ≤ b.count := by
    refine foldlM_range (I := fun i s => Keeps s ((b.digits.held.take i).foldl (Digits.Division.digit bits) { truncated := b.truncated }) ∧
      s.held.drop i = b.held.drop i ∧ s.written ≤ i) (fun i hi s ⟨hk,hbehind,hw⟩ => ?_)
      ⟨⟨h.size,rfl,rfl,rfl,rfl,rfl⟩,rfl,Nat.le_refl _⟩
    have hin : i < b.digits.held.length := by omega
    have hsmall : AreDigits (b.digits.held.take i) := fun y hy => h.small y (List.mem_of_mem_take hy)
    have hdiv := Digits.digits_divide (Digits.divides_nil bits b.truncated) hsmall (by
      have := h.fits
      rw [List.length_take]
      simp only [List.length_nil]
      omega)
    have hx : b.digits.held[i] < 10 := h.small _ (List.getElem_mem hin)
    have hread : read s.held i = .ok b.digits.held[i] := by
      have hsame := congrArg (fun l : List ℕ => l[0]?) hbehind
      simp only [List.getElem?_drop,Nat.add_zero] at hsame
      have hheld : b.digits.held[i]? = b.held[i]? := by rw [digits,List.getElem?_take_of_lt hi]
      rw [read,hsame,← hheld,List.getElem?_eq_getElem hin]
    obtain ⟨s',hrun,hk',hback,hw'⟩ := digit_ok hk hbits hdiv.remainder hx hread hw
    refine ⟨s',hrun,?_,?_,hw'⟩
    · rw [List.take_succ_eq_append_getElem hin,List.foldl_append]
      exact hk'
    · have hmore := congrArg (List.drop 1) hbehind
      rw [List.drop_drop,List.drop_drop] at hmore
      rw [hback,hmore]
  obtain ⟨s,hrun,hk,-⟩ := hrun
  rw [List.take_of_length_le (Nat.le_of_eq hlen)] at hk
  exact ⟨s,hrun,hk⟩

theorem tail_next (h : Keeps s v) (hbits : bits ≤ Bounds.shiftBits) (hr : v.remainder < 2 ^ bits) {v' : Digits.Division}
    (hnext : v.tail bits = .ok (.next v')) : ∃ s', s.tail bits (2 ^ bits - 1) = .ok (.next s') ∧ v'.remainder < 2 ^ bits ∧ Keeps s' v' := by
  have hmod : v.remainder * 10 % 2 ^ bits < 2 ^ bits := Nat.mod_lt _ (Nat.two_pow_pos bits)
  rw [Digits.Division.tail] at hnext
  split at hnext
  · cases hnext
  rename_i hzero
  rw [Division.tail,h.remainder,if_neg hzero,value_ok hbits (h.remainder ▸ hr) (by omega),ok_bind,h.remainder,Nat.add_zero,
    Nat.and_two_pow_sub_one_eq_mod]
  dsimp only at hnext ⊢
  split at hnext
  · rename_i hskip
    cases hnext
    rw [if_pos ⟨hskip.1,h.no_digit.2 hskip.2⟩]
    exact ⟨_,rfl,hmod,⟨h.size,h.written,h.front,rfl,congrArg (· + 1) h.dropped,h.truncated⟩⟩
  rename_i hskip
  split at hnext
  · cases hnext
  rename_i hroom
  cases hnext
  have hk : Keeps { s with remainder := v.remainder * 10 % 2 ^ bits } { v with remainder := v.remainder * 10 % 2 ^ bits } :=
    ⟨h.size,h.written,h.front,rfl,h.dropped,h.truncated⟩
  obtain ⟨s',hrun,hk',-⟩ := hk.write (h.written ▸ not_le.1 hroom) (quotient_lt (x := 0) hr (by omega))
  rw [if_neg (fun hno => hskip ⟨hno.1,h.no_digit.1 hno.2⟩),if_neg (h.written ▸ hroom)]
  rw [Nat.add_zero] at hrun
  exact ⟨s',by rw [hrun,ok_bind],hmod,hk'⟩

theorem tail_done (h : Keeps s v) (hbits : bits ≤ Bounds.shiftBits) (hr : v.remainder < 2 ^ bits) {v' : Digits.Division}
    (hdone : v.tail bits = .ok (.done v')) : ∃ s', s.tail bits (2 ^ bits - 1) = .ok (.done s') ∧ Keeps s' v' := by
  rw [Digits.Division.tail] at hdone
  split at hdone
  · rename_i hzero
    cases hdone
    exact ⟨s,by rw [Division.tail,h.remainder,if_pos hzero],h⟩
  rename_i hzero
  rw [Division.tail,h.remainder,if_neg hzero,value_ok hbits (h.remainder ▸ hr) (by omega),ok_bind,h.remainder,Nat.add_zero,
    Nat.and_two_pow_sub_one_eq_mod]
  dsimp only at hdone ⊢
  split at hdone
  · cases hdone
  rename_i hskip
  split at hdone
  · rename_i hfull
    cases hdone
    rw [if_neg (fun hno => hskip ⟨hno.1,h.no_digit.1 hno.2⟩),if_pos (h.written ▸ hfull)]
    refine ⟨_,rfl,?_⟩
    split
    · exact ⟨h.size,h.written,h.front,rfl,h.dropped,rfl⟩
    · exact ⟨h.size,h.written,h.front,rfl,h.dropped,h.truncated⟩
  · cases hdone

theorem shiftRight_ok (h : Holds b) (hbits : bits ≤ Bounds.shiftBits) :
    ∃ b', shiftRight b bits = .ok b' ∧ Holds b' ∧ b.digits.shiftRight bits = .ok b'.digits := by
  have hpow : 2 ^ bits ≤ 2 ^ 50 := Nat.pow_le_pow_right (by omega) hbits
  have hfits : b.digits.held.length ≤ Bounds.capacity := (List.length_take_le _ _).trans h.fits
  obtain ⟨s,hread,hk⟩ := digits_ok h hbits
  have hdiv := Digits.digits_divide (Digits.divides_nil bits b.truncated) h.small (by simpa using hfits)
  obtain ⟨v',hloop,hdivided⟩ := Digits.tail_divided hdiv
  obtain ⟨s',hloop',hk'⟩ := loop_follow (I := fun v s => v.remainder < 2 ^ bits ∧ Keeps s v) (Q := fun v s => Keeps s v) (fun _ => 0) (fun _ => 0)
    (fun _ _ _ => Nat.le_refl _) (fun _ _ _ => Nat.le_refl _)
    (fun v s v' hI hnext _ => (tail_next hI.2 hbits hI.1 hnext).imp fun _ hs => hs)
    (fun v s r hI hdone _ => tail_done hI.2 hbits hI.1 hdone) (Nat.le_refl _) ⟨hdiv.remainder,hk⟩ hloop rfl
  have hfront : s'.held.take s'.written = v'.written := hk'.front
  have hholds : Holds ⟨s'.held,s'.written,b.point - s'.dropped,s'.truncated⟩ := by
    refine ⟨hk'.size,hk'.written ▸ hdivided.fits,?_⟩
    simp only [digits,hfront]
    exact hdivided.small
  obtain ⟨b',hnormal,hb',hdigits⟩ := normalize_ok hholds
  refine ⟨b',?_,hb',?_⟩
  · rw [shiftRight,Nat.one_shiftLeft,ulong_ok (by omega),ok_bind]
    dsimp only
    rw [hread,ok_bind,hloop',ok_bind,hnormal]
  · rw [hdigits,Digits.shiftRight]
    have htruncated : b.digits.truncated = b.truncated := rfl
    rw [htruncated,hloop,ok_bind]
    simp only [digits,hfront,hk'.dropped,hk'.truncated]

/-! ### What a shift is worth -/

end Buffer

namespace Digits
variable {d : Digits} {bits : ℕ}

theorem normalize_any (d : Digits) : (normalize d).value = d.value ∧ ((normalize d).truncated = true ↔ d.value ≠ 0 ∧ d.truncated = true) := by
  obtain ⟨n,hn⟩ := normalize_held d
  set lead := (d.held.takeWhile fun x => decide (x = 0)).length
  set core := (d.held.dropWhile fun x => decide (x = 0)).rdropWhile fun x => decide (x = 0) with hcore
  have hvalue : d.value = magnitude core (d.point - lead) := by
    rw [value]
    conv_lhs => rw [hn]
    rw [magnitude_append_zeros,magnitude_zeros_append]
  have hnormal : normalize d = if core = [] then ⟨[],0,false⟩ else ⟨core,d.point - lead,d.truncated⟩ := rfl
  by_cases hempty : core = []
  · have hzero : d.value = 0 := by
      rw [hvalue,hempty]
      simp [magnitude]
    rw [hnormal,if_pos hempty,hzero]
    simp [value,magnitude]
  · have hpos : d.value ≠ 0 := by
      have hlast := List.rdropWhile_last_not (fun x => decide (x = 0)) (d.held.dropWhile fun x => decide (x = 0)) hempty
      have hnumber := number_pos (List.getLast_mem hempty) (by simpa using hlast)
      have hten := ten_pow_pos (d.point - lead - core.length)
      rw [hvalue,magnitude]
      positivity
    rw [hnormal,if_neg hempty]
    exact ⟨hvalue.symm,fun h => ⟨hpos,h⟩,fun h => h.2⟩

def kept (d : Digits) : List ℕ := d.held.take (Bounds.capacity - Bounds.lead)

theorem shiftLeft_exact (hsmall : AreDigits d.held) (hfits : d.held.length ≤ Bounds.capacity) (hbits : bits ≤ Bounds.shiftBits) :
    (shiftLeft d bits).value = magnitude d.kept d.point * 2 ^ bits ∧ ((shiftLeft d bits).truncated = true ↔
      (shiftLeft d bits).value ≠ 0 ∧ (d.truncated = true ∨ ∃ x ∈ d.held.drop (Bounds.capacity - Bounds.lead), x ≠ 0)) := by
  have hcapacity : Bounds.capacity = 800 := rfl
  have hlead : Bounds.lead = 20 := rfl
  have hroom : ∃ t, (if Bounds.capacity < d.count + Bounds.lead then d.dropLast (d.count + Bounds.lead - Bounds.capacity) else d) =
      ⟨d.kept,d.point,t⟩ ∧ (t = true ↔ d.truncated = true ∨ ∃ x ∈ d.held.drop (Bounds.capacity - Bounds.lead), x ≠ 0) := by
    have hcount : d.count = d.held.length := rfl
    split
    · have hkeep : d.count - (d.count + Bounds.lead - Bounds.capacity) = Bounds.capacity - Bounds.lead := by omega
      refine ⟨_,by rw [dropLast,hkeep,kept],?_⟩
      rw [Bool.or_eq_true,List.any_eq_true]
      simp
    · have hall : d.held.length ≤ Bounds.capacity - Bounds.lead := by omega
      refine ⟨d.truncated,by rw [kept,List.take_of_length_le hall],?_⟩
      rw [List.drop_of_length_le hall]
      simp
  obtain ⟨t,hd,ht⟩ := hroom
  have hkept : AreDigits d.kept := fun x hx => hsmall x (List.mem_of_mem_take hx)
  obtain ⟨-,hlen,-⟩ := carried_spec bits (l := List.replicate Bounds.lead 0 ++ d.kept)
  have hnumber := carried_room hkept hbits
  rw [List.length_append,List.length_replicate] at hlen
  rw [shiftLeft,hd]
  dsimp only
  set out := (carried bits (List.replicate Bounds.lead 0 ++ d.kept)).2
  have hvalue : value ⟨out,d.point + Bounds.lead,t⟩ = magnitude d.kept d.point * 2 ^ bits := by
    simp only [value,magnitude,hnumber,hlen]
    push_cast
    rw [show d.point + (Bounds.lead : ℤ) - (Bounds.lead + d.kept.length) = d.point - d.kept.length by ring]
    ring
  obtain ⟨hsame,hflag⟩ := normalize_any ⟨out,d.point + Bounds.lead,t⟩
  rw [hsame]
  exact ⟨hvalue,by rw [hflag,ht]⟩

structure CutTo (x y : ℚ) (point : ℤ) : Prop where
  le : y ≤ x
  near : x < y + 10 ^ (point - Bounds.capacity)
  digits : ∃ n : ℕ, y = n * 10 ^ (point - Bounds.capacity)

theorem cutTo_self (hfits : d.held.length ≤ Bounds.capacity) : CutTo d.value d.value d.point := by
  refine ⟨le_refl _,by linarith [ten_pow_pos (d.point - Bounds.capacity)],number d.held * 10 ^ (Bounds.capacity - d.held.length),?_⟩
  rw [value,magnitude]
  push_cast
  rw [mul_assoc,← zpow_natCast,← zpow_add₀ (by norm_num)]
  congr 2
  omega

theorem normalize_held_length (d : Digits) : (normalize d).held.length ≤ d.held.length := by
  unfold normalize
  dsimp only
  split
  · exact Nat.zero_le _
  · exact ((List.rdropWhile_prefix _ _).length_le).trans (List.dropWhile_suffix _).length_le

theorem shiftRight_exact {d' : Digits} (hsmall : AreDigits d.held) (hfits : d.held.length ≤ Bounds.capacity)
    (hrun : shiftRight d bits = .ok d') : CutTo (d.value / 2 ^ bits) d'.value d'.point ∧
      (d'.truncated = true ↔ d'.value ≠ 0 ∧ (d.truncated = true ∨ d'.value ≠ d.value / 2 ^ bits)) := by
  have hdiv := digits_divide (divides_nil bits d.truncated) hsmall (by simpa using hfits)
  obtain ⟨v,hv,hdigits,hfirst,hlong,i,r,hlen,hnum,hr,hrest⟩ := tail_divided hdiv
  rw [List.nil_append] at hlen hnum
  rw [shiftRight,hv,ok_bind] at hrun
  cases hrun
  set q := d.point - v.dropped with hq
  have hunit : (10 : ℚ) ^ (d.point - d.held.length) = 10 ^ i * 10 ^ (q - v.written.length) := by
    rw [← zpow_natCast,← zpow_add₀ (by norm_num)]
    congr 1
    omega
  have hpow : (0 : ℚ) < 2 ^ bits := by positivity
  -- The quotient and what is left of the remainder, in units of the last digit written.
  have hvalue : d.value / 2 ^ bits = magnitude v.written q + r / 2 ^ bits * 10 ^ (q - v.written.length) := by
    have hnum' : (number d.held : ℚ) * 10 ^ i = number v.written * 2 ^ bits + r := by exact_mod_cast hnum
    rw [value,magnitude,magnitude,hunit,← mul_assoc,hnum']
    field_simp
  obtain ⟨hsame,hflag⟩ := normalize_any ⟨v.written,q,v.truncated⟩
  have hmag : value ⟨v.written,q,v.truncated⟩ = magnitude v.written q := rfl
  rcases hrest with ⟨rfl,htr⟩ | ⟨hr0,htr,hcap⟩
  · have hexact : d.value / 2 ^ bits = (normalize ⟨v.written,q,v.truncated⟩).value := by
      rw [hvalue,hsame,hmag]
      simp
    rw [hexact]
    refine ⟨cutTo_self ((normalize_held_length _).trans hlong),?_⟩
    rw [hflag,hsame,htr]
    simp
  · obtain ⟨x,w,hw⟩ : ∃ x w, v.written = x :: w := by
      cases hw : v.written with
      | nil => rw [hw] at hcap; cases hcap
      | cons x w => exact ⟨x,w,rfl⟩
    have hx : x ≠ 0 := fun h0 => hfirst (by rw [hw,h0]; rfl)
    have hpoint : (normalize ⟨v.written,q,v.truncated⟩).point = q := by
      have hhead : (v.written.takeWhile fun x => decide (x = 0)) = [] := by
        rw [hw,List.takeWhile_cons_of_neg (by simpa using hx)]
      have hne : ((v.written.dropWhile fun x => decide (x = 0)).rdropWhile fun x => decide (x = 0)) ≠ [] := by
        intro hempty
        have hzero : magnitude v.written q = 0 := by
          rw [← hmag,← hsame,normalize]
          dsimp only
          rw [if_pos hempty]
          simp [value,magnitude]
        have hpos := magnitude_pos (l := w) hx q
        rw [← hw,hzero] at hpos
        exact lt_irrefl _ hpos
      rw [normalize]
      dsimp only
      rw [if_neg hne,hhead]
      simp
    have hten := ten_pow_pos (q - Bounds.capacity)
    have hr' : (0 : ℚ) < r := by exact_mod_cast hr0
    have hrlt : (r : ℚ) / 2 ^ bits < 1 := by
      rw [div_lt_one hpow]
      exact_mod_cast hr
    have hrpos : (0 : ℚ) < r / 2 ^ bits * 10 ^ (q - Bounds.capacity) := by positivity
    rw [hcap] at hvalue
    have hnear := mul_lt_mul_of_pos_right hrlt hten
    rw [hpoint,hsame,hmag]
    refine ⟨⟨by linarith,by linarith,number v.written,by rw [magnitude,hcap]⟩,?_⟩
    rw [hflag,hmag,htr]
    have hne : magnitude v.written q ≠ d.value / 2 ^ bits := by
      intro heq
      linarith
    simp [hne]

end Digits

namespace Buffer
variable {b : Buffer} {bits : ℕ}

def value (b : Buffer) : ℚ := b.digits.value

/-- Shifts are exact but for digits past the room there is, which are cut before a shift to the left multiplies what is kept and after a shift to
the right divides. No index leaves the array, and no product or carry its type. -/
theorem shifts_exact (h : Holds b) (hbits : bits ≤ Bounds.shiftBits) :
    (∃ b', shiftLeft b bits = .ok b' ∧ Holds b' ∧ b'.value = magnitude b.digits.kept b.point * 2 ^ bits ∧
      (b'.truncated = true ↔ b'.value ≠ 0 ∧ (b.truncated = true ∨ ∃ x ∈ b.digits.held.drop (Bounds.capacity - Bounds.lead), x ≠ 0))) ∧
    ∃ b', shiftRight b bits = .ok b' ∧ Holds b' ∧ Digits.CutTo (b.value / 2 ^ bits) b'.value b'.point ∧
      (b'.truncated = true ↔ b'.value ≠ 0 ∧ (b.truncated = true ∨ b'.value ≠ b.value / 2 ^ bits)) := by
  have hfits : b.digits.held.length ≤ Bounds.capacity := (List.length_take_le _ _).trans h.fits
  obtain ⟨l,hl,hholds,hleft⟩ := shiftLeft_ok h hbits
  obtain ⟨r,hr,hholds',hright⟩ := shiftRight_ok h hbits
  obtain ⟨hvalue,hflag⟩ := Digits.shiftLeft_exact h.small hfits hbits
  obtain ⟨hcut,hflag'⟩ := Digits.shiftRight_exact h.small hfits hright
  rw [← hleft] at hvalue hflag
  exact ⟨⟨l,hl,hholds,hvalue,hflag⟩,r,hr,hholds',hcut,hflag'⟩

def crowded (zeros : ℕ) : Buffer := ⟨1 :: List.replicate zeros 0 ++ [1] ++ [9] ++ List.replicate 19 0,zeros + 3,0,false⟩

section
variable {n : ℕ}

theorem crowded_digits (n : ℕ) : (crowded n).digits = ⟨1 :: List.replicate n 0 ++ [1] ++ [9],0,false⟩ := by
  have hlen : (1 :: List.replicate n 0 ++ [1] ++ [9]).length = n + 3 := by simp
  simp only [digits,crowded]
  rw [← hlen,List.take_left]

theorem crowded_holds (hn : n + 2 = Bounds.capacity - Bounds.lead) : Holds (crowded n) := by
  have hcapacity : Bounds.capacity = 800 := rfl
  have hlead : Bounds.lead = 20 := rfl
  refine ⟨?_,by simp only [crowded]; omega,?_⟩
  · simp only [crowded,List.length_append,List.length_cons,List.length_replicate,List.length_nil]
    omega
  · rw [crowded_digits]
    intro x hx
    simp only [List.cons_append,List.mem_cons,List.mem_append,List.mem_replicate,List.not_mem_nil,or_false] at hx
    omega

theorem crowded_shiftLeft (hn : n + 2 = Bounds.capacity - Bounds.lead) : ∃ b', shiftLeft (crowded n) 1 = .ok b' ∧
    b'.value = (10 ^ (n + 1) + 1 : ℕ) * 2 * 10 ^ (0 - (n + 2 : ℕ) : ℤ) ∧
    (crowded n).value = ((10 ^ (n + 1) + 1 : ℕ) + 9 / 10) * 10 ^ (0 - (n + 2 : ℕ) : ℤ) := by
  have hlen : (1 :: List.replicate n 0 ++ [1]).length = n + 2 := by simp
  have hkept : (crowded n).digits.kept = 1 :: List.replicate n 0 ++ [1] := by
    rw [crowded_digits,Digits.kept,← hn,← hlen]
    simp only
    rw [List.take_left]
  have hnumber : number (1 :: List.replicate n 0 ++ [1]) = 10 ^ (n + 1) + 1 := by
    rw [number_concat,number_cons,number_replicate,List.length_replicate,pow_succ]
    ring
  obtain ⟨b',hrun,-,hdigits⟩ := shiftLeft_ok (crowded_holds hn) (by decide : 1 ≤ Bounds.shiftBits)
  have hfits : (crowded n).digits.held.length ≤ Bounds.capacity := (List.length_take_le _ _).trans (crowded_holds hn).fits
  have hvalue := (Digits.shiftLeft_exact (crowded_holds hn).small hfits (by decide : 1 ≤ Bounds.shiftBits)).1
  refine ⟨b',hrun,?_,?_⟩
  · rw [value,hdigits,hvalue,hkept,crowded_digits,magnitude,hnumber,hlen]
    ring
  · have hten : (10 : ℚ) ^ (0 - (n + 2 : ℕ) : ℤ) = 10 * 10 ^ (0 - ((n + 2 + 1 : ℕ) : ℤ)) := by
      rw [← zpow_one_add₀ (by norm_num)]
      congr 1
    rw [value,crowded_digits,Digits.value,magnitude,number_concat,hnumber,List.length_append,hlen,List.length_singleton,hten]
    push_cast
    ring

/-- A number that twice another number ends in `2` is no multiple of ten. -/
theorem crowded_cut (hn : n + 2 = Bounds.capacity - Bounds.lead) : ∃ b', shiftLeft (crowded n) 1 = .ok b' ∧ b'.value ≠ (crowded n).value * 2 ∧
    ¬ ∃ (e : ℤ) (m : ℕ), b'.value = m * 10 ^ e ∧ (crowded n).value * 2 < (m + 1) * 10 ^ e := by
  obtain ⟨b',hrun,hvalue,hbefore⟩ := crowded_shiftLeft hn
  have hunit := ten_pow_pos (0 - (n + 2 : ℕ))
  refine ⟨b',hrun,?_,?_⟩
  · rw [hvalue,hbefore]
    intro heq
    linarith
  · rintro ⟨e,m,hm,hlt⟩
    have hbig : (10 : ℚ) ^ (0 - (n + 2 : ℕ) : ℤ) < 10 ^ e := by
      rw [hbefore] at hlt
      rw [hvalue] at hm
      linarith
    have he : 0 - ((n + 2 : ℕ) : ℤ) < e := by
      by_contra hle
      exact absurd hbig (not_lt.2 (ten_pow_le (by omega)))
    obtain ⟨k,rfl⟩ : ∃ k : ℕ, e = 0 - (n + 2 : ℕ) + (k + 1 : ℕ) := ⟨(e + (n + 1)).toNat,by push_cast at he ⊢; omega⟩
    rw [hvalue,zpow_add₀ (by norm_num),zpow_natCast] at hm
    have hrat : ((10 ^ (n + 1) + 1 : ℕ) : ℚ) * 2 = m * 10 ^ (k + 1) := by
      refine mul_right_cancel₀ hunit.ne' ?_
      rw [hm]
      ring
    have hnat : (10 ^ (n + 1) + 1) * 2 = m * 10 ^ (k + 1) := by exact_mod_cast hrat
    rw [pow_succ,pow_succ,← Nat.mul_assoc] at hnat
    omega

end

theorem crowded_exact : Holds (crowded 778) ∧ 1 ≤ Bounds.shiftBits ∧
    ∃ b', shiftRight (crowded 778) 1 = .ok b' ∧ Digits.CutTo ((crowded 778).value / 2 ^ 1) b'.value b'.point :=
  ⟨crowded_holds rfl,by decide,(shifts_exact (crowded_holds rfl) (by decide)).2.imp fun _ h => ⟨h.1,h.2.2.1⟩⟩

/-- Doubling digits of which one is left out gives neither the double nor the double cut at any place. -/
theorem not_shiftLeft_cut : Holds (crowded 778) ∧ ∃ b', shiftLeft (crowded 778) 1 = .ok b' ∧ b'.value ≠ (crowded 778).value * 2 ∧
    ¬ ∃ (e : ℤ) (m : ℕ), b'.value = m * 10 ^ e ∧ (crowded 778).value * 2 < (m + 1) * 10 ^ e :=
  ⟨crowded_holds rfl,crowded_cut rfl⟩

end Buffer
end Ens.Number
