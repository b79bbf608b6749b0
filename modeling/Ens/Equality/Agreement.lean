import Ens.Equality.Objects

/-! # Equal values hash alike

By induction on a value, the two recursions side by side. Only the zeros of a floating-point number come apart: they are equal and their
bits differ.
-/
set_option linter.all false
namespace Ens.Equality
open Dispatch

variable {K J S : Type} [DecidableEq K] [DecidableEq J] [DecidableEq S]

def Value.parts : Value → List Value
  | .present x => [x]
  | .array xs => xs
  | .struct xs => xs
  | _ => []

theorem Value.sizeOf_part {x a : Value} (hx : x ∈ a.parts) : sizeOf x < sizeOf a := by
  cases a with
  | present y =>
    obtain rfl := List.mem_singleton.mp hx
    simp
  | array xs =>
    have hlt : sizeOf x < sizeOf xs := List.sizeOf_lt_of_mem hx
    simp only [Value.array.sizeOf_spec]
    omega
  | struct xs =>
    have hlt : sizeOf x < sizeOf xs := List.sizeOf_lt_of_mem hx
    simp only [Value.struct.sizeOf_spec]
    omega
  | _ => cases hx

theorem Value.induct {motive : Value → Prop} (h : ∀ a, (∀ x ∈ a.parts, motive x) → motive a) (a : Value) : motive a :=
  h a fun x _ => Value.induct h x
termination_by sizeOf a
decreasing_by exact Value.sizeOf_part ‹_›

mutual

/-- An object stands where its class may, and a number where the compiler compares one is as asked. A struct that declares its own pair
is not looked into. -/
def Fits (P : Program K J S) (H : Heap K S) (ok : Precision → ℕ → Prop) (t : Ty K J S) (a : Value) : Prop := match formOf t, a with
  | .tagged payload, .present x => Fits P H ok payload x
  | .struct s, .struct xs => P.declaresOwnPair s = false → FieldsFit P H ok (P.fieldsOf s) xs
  | .array element, .array xs => ItemsFit P H ok element xs
  | .classLike, a => Instance P H t a
  | .float p, .float m => ok p m
  | _, _ => True

def FieldsFit (P : Program K J S) (H : Heap K S) (ok : Precision → ℕ → Prop) : List (Ty K J S) → List Value → Prop
  | t :: ts, x :: xs => Fits P H ok t x ∧ FieldsFit P H ok ts xs
  | _, _ => True

def ItemsFit (P : Program K J S) (H : Heap K S) (ok : Precision → ℕ → Prop) (element : Ty K J S) : List Value → Prop
  | [] => True
  | x :: xs => Fits P H ok element x ∧ ItemsFit P H ok element xs

end

variable {P : Program K J S} {H : Heap K S} {side : Side} {t payload element : Ty K J S} {s : S} {a b c : Value} {ts : List (Ty K J S)}
  {xs ys zs : List Value} {ok : Precision → ℕ → Prop} {p : Precision} {m n : ℕ}

/-! ### One form at a time -/

theorem equal_forms : equal P H side t a b = match formOf t, a, b with
    | .tagged _, .absent, .absent => true
    | .tagged payload, .present x, .present y => equal P H side payload x y
    | .struct s, .struct xs, .struct ys =>
      if P.declaresOwnPair s then H.structEquals s (.struct xs) (.struct ys) else equalFields P H side (P.fieldsOf s) xs ys
    | .string, .text xs, .text ys => xs = ys
    | .array element, .array xs, .array ys => equalItems P H element xs ys
    | .classLike, a, b => match side with
      | .direct => compareReferences P H t a b
      | .content => dynamicEquals P H a b
    | .pointer, a, b => compareIdentity a b
    | .float p, .float m, .float n => p.floatCmpEq m n
    | .whole, .whole m, .whole n => m = n
    | .void, .nothing, .nothing => true
    | .string, .null, .null => true
    | .array _, .null, .null => true
    | _, _, _ => false := equal.eq_def ..

theorem equal_tagged (ht : formOf t = .tagged payload) : equal P H side t a b = true ↔
    a = .absent ∧ b = .absent ∨ ∃ x y, a = .present x ∧ b = .present y ∧ equal P H side payload x y = true := by
  rw [equal_forms,ht]
  cases a <;> cases b <;> simp

theorem equal_struct (ht : formOf t = .struct s) : equal P H side t a b = true ↔ ∃ xs ys, a = .struct xs ∧ b = .struct ys ∧
    if P.declaresOwnPair s then H.structEquals s a b = true else equalFields P H side (P.fieldsOf s) xs ys = true := by
  rw [equal_forms,ht]
  cases a <;> cases b <;> simp

theorem equal_array (ht : formOf t = .array element) : equal P H side t a b = true ↔
    a = .null ∧ b = .null ∨ ∃ xs ys, a = .array xs ∧ b = .array ys ∧ equalItems P H element xs ys = true := by
  rw [equal_forms,ht]
  cases a <;> cases b <;> simp

theorem equal_classLike (ht : formOf t = .classLike) :
    equal P H side t a b = (match side with | .direct => compareReferences P H t a b | .content => dynamicEquals P H a b) := by
  rw [equal_forms,ht]

theorem equal_float (ht : formOf t = .float p) : equal P H side t a b = true ↔
    ∃ m n, a = .float m ∧ b = .float n ∧ p.floatCmpEq m n = true := by
  rw [equal_forms,ht]
  cases a <;> cases b <;> simp

theorem equal_plain (ht : formOf t = .void ∨ formOf t = .whole ∨ formOf t = .string ∨ formOf t = .pointer)
    (h : equal P H side t a b = true) : a = b := by
  rcases ht with ht | ht | ht | ht <;> rw [equal_forms,ht] at h
  · cases a <;> cases b <;> first | rfl | cases h
  · cases a <;> cases b <;> first | cases h | skip
    exact congrArg _ (of_decide_eq_true h)
  · cases a <;> cases b <;> first | rfl | cases h | skip
    exact congrArg _ (of_decide_eq_true h)
  · exact compareIdentity_eq h

/-! ### Hashes -/

theorem floatCmpEq_same (hm : m < 2 ^ p.width ∧ m ≠ p.negativeZero) (hn : n < 2 ^ p.width ∧ n ≠ p.negativeZero)
    (h : p.floatCmpEq m n = true) : m = n := by
  have hzero : ∀ k, k < 2 ^ p.width ∧ k ≠ p.negativeZero → p.magnitude k = 0 → k = 0 := by
    rintro k ⟨hlt,hne⟩ hmag
    obtain ⟨d,rfl⟩ := Nat.dvd_of_mod_eq_zero hmag
    have hd : d < 2 := by
      have hw : 2 ^ p.width = 2 ^ (p.width - 1) * 2 := by cases p <;> rfl
      exact Nat.lt_of_mul_lt_mul_left (hw ▸ hlt)
    obtain rfl | rfl : d = 0 ∨ d = 1 := by omega
    · exact Nat.mul_zero _
    · exact absurd (Nat.mul_one _) hne
  simp only [Precision.floatCmpEq,Bool.and_eq_true,Bool.or_eq_true,decide_eq_true_eq] at h
  rcases h.2 with h | ⟨hzm,hzn⟩
  · exact h
  · rw [hzero m hm hzm,hzero n hn hzn]

theorem equalFields_hash (folded : Hash) (h : ∀ x ∈ xs, ∀ t b, Fits P H ok t x → Fits P H ok t b →
      equal P H side t x b = true → hash P H side t x = hash P H side t b) (hx : FieldsFit P H ok ts xs) (hy : FieldsFit P H ok ts ys)
    (he : equalFields P H side ts xs ys = true) : hashFields P H side folded ts xs = hashFields P H side folded ts ys := by
  induction ts generalizing xs ys folded with
  | nil => cases xs <;> cases ys <;> rfl
  | cons t ts ih =>
    cases xs with
    | nil => cases ys <;> first | rfl | cases he
    | cons x xs =>
      cases ys with
      | nil => cases he
      | cons y ys =>
        rw [FieldsFit] at hx hy
        rw [equalFields] at he
        rw [hashFields,hashFields]
        have hrest := fun z hz => h z (List.mem_cons_of_mem x hz)
        split_ifs at he ⊢ with hvoid
        · exact ih folded hrest hx.2 hy.2 he
        · rw [Bool.and_eq_true] at he
          rw [h x List.mem_cons_self t y hx.1 hy.1 he.1]
          exact ih _ hrest hx.2 hy.2 he.2

theorem equalItems_hash (folded : Hash) (h : ∀ x ∈ xs, ∀ b, Fits P H ok element x → Fits P H ok element b →
      equal P H .content element x b = true → hash P H .content element x = hash P H .content element b)
    (hx : ItemsFit P H ok element xs) (hy : ItemsFit P H ok element ys) (he : equalItems P H element xs ys = true) :
    hashItems P H folded element xs = hashItems P H folded element ys := by
  induction xs generalizing ys folded with
  | nil => cases ys <;> first | rfl | cases he
  | cons x xs ih =>
    cases ys with
    | nil => cases he
    | cons y ys =>
      rw [ItemsFit] at hx hy
      rw [equalItems,Bool.and_eq_true] at he
      rw [hashItems,hashItems,h x List.mem_cons_self y hx.1 hy.1 he.1]
      exact ih _ (fun z hz => h z (List.mem_cons_of_mem x hz)) hx.2 hy.2 he.2

/-- The bits of a floating-point number that is not the negative zero. -/
def NotNegativeZero (p : Precision) (bits : ℕ) : Prop := bits < 2 ^ p.width ∧ bits ≠ p.negativeZero

omit [DecidableEq K] [DecidableEq J] [DecidableEq S] in
theorem fits_forms : Fits P H ok t a = match formOf t, a with
    | .tagged payload, .present x => Fits P H ok payload x
    | .struct s, .struct xs => P.declaresOwnPair s = false → FieldsFit P H ok (P.fieldsOf s) xs
    | .array element, .array xs => ItemsFit P H ok element xs
    | .classLike, a => Instance P H t a
    | .float p, .float m => ok p m
    | _, _ => True := Fits.eq_def ..

omit [DecidableEq K] [DecidableEq J] [DecidableEq S] in
theorem fits_tagged (ht : formOf t = .tagged payload) (x : Value) : Fits P H ok t (.present x) ↔ Fits P H ok payload x := by
  rw [fits_forms,ht]

omit [DecidableEq K] [DecidableEq J] [DecidableEq S] in
theorem fits_struct (ht : formOf t = .struct s) : Fits P H ok t (.struct xs) ↔
    (P.declaresOwnPair s = false → FieldsFit P H ok (P.fieldsOf s) xs) := by
  rw [fits_forms,ht]

omit [DecidableEq K] [DecidableEq J] [DecidableEq S] in
theorem fits_array (ht : formOf t = .array element) : Fits P H ok t (.array xs) ↔ ItemsFit P H ok element xs := by
  rw [fits_forms,ht]

omit [DecidableEq K] [DecidableEq J] [DecidableEq S] in
theorem fits_classLike (ht : formOf t = .classLike) : Fits P H ok t a ↔ Instance P H t a := by
  rw [fits_forms,ht]

omit [DecidableEq K] [DecidableEq J] [DecidableEq S] in
theorem fits_float (ht : formOf t = .float p) : Fits P H ok t (.float m) ↔ ok p m := by
  rw [fits_forms,ht]

theorem hash_forms : hash P H side t a = match formOf t, a with
    | .tagged payload, .present x => hash P H side payload x
    | .tagged _, _ => missing
    | .struct s, .struct xs =>
      if P.declaresOwnPair s then H.structHash s (.struct xs) else hashFields P H side basis (P.fieldsOf s) xs
    | .string, .text xs => stringHash xs
    | .array element, .array xs => hashItems P H 17 element xs
    | .array _, .null => missing
    | .classLike, .object x => match side with
      | .direct => hashOfReference P H t (.object x)
      | .content => dynamicHash P H (.object x)
    | .pointer, .object x => identityHash (.object x)
    | .float _, .float m => BitVec.ofNat 64 m
    | .whole, .whole m => BitVec.ofInt 64 m
    | _, .null => match side with
      | .direct => missing
      | .content => 0
    | _, _ => 0 := hash.eq_def ..

theorem hash_tagged (ht : formOf t = .tagged payload) (x : Value) : hash P H side t (.present x) = hash P H side payload x := by
  rw [hash_forms,ht]

theorem hash_struct (ht : formOf t = .struct s) : hash P H side t (.struct xs) =
    if P.declaresOwnPair s then H.structHash s (.struct xs) else hashFields P H side basis (P.fieldsOf s) xs := by
  rw [hash_forms,ht]

theorem hash_array (ht : formOf t = .array element) : hash P H side t (.array xs) = hashItems P H 17 element xs := by
  rw [hash_forms,ht]

theorem hash_classLike (ht : formOf t = .classLike) (x : ℕ) : hash P H side t (.object x) =
    match side with | .direct => hashOfReference P H t (.object x) | .content => dynamicHash P H (.object x) := by
  rw [hash_forms,ht]

theorem objects_hash (ha : P.Accepted) (hk : P.Kept) (hl : H.Live P) (hu : H.PairsAgree P) (ht : formOf t = .classLike)
    (hx : Instance P H t a) (hy : Instance P H t b) (he : equal P H side t a b = true) : hash P H side t a = hash P H side t b := by
  rw [equal_classLike ht] at he
  cases side with
  | direct =>
    rcases (compareReferences_iff ha hk hx hy).mp he with hone | ⟨x,y,rfl,rfl,-⟩
    · rw [compareIdentity_eq hone]
    · rw [hash_classLike ht,hash_classLike ht]
      exact hashOfReference_eq ha hk hl hu hx hy he
  | content =>
    rcases dynamicEquals_iff.mp he with hone | ⟨x,y,rfl,rfl,-⟩
    · rw [compareIdentity_eq hone]
    · rw [hash_classLike ht,hash_classLike ht]
      exact dynamicHash_eq ha hl hu he

theorem hash_eq (ha : P.Accepted) (hk : P.Kept) (hl : H.Live P) (hu : H.PairsAgree P) (a : Value) : ∀ side t b,
    Fits P H NotNegativeZero t a → Fits P H NotNegativeZero t b → equal P H side t a b = true →
      hash P H side t a = hash P H side t b := by
  induction a using Value.induct with
  | h a ih =>
    intro side t b hx hy he
    cases ht : formOf t with
    | void => rw [equal_plain (.inl ht) he]
    | whole => rw [equal_plain (.inr (.inl ht)) he]
    | string => rw [equal_plain (.inr (.inr (.inl ht))) he]
    | pointer => rw [equal_plain (.inr (.inr (.inr ht))) he]
    | classLike => exact objects_hash ha hk hl hu ht ((fits_classLike ht).mp hx) ((fits_classLike ht).mp hy) he
    | float p =>
      obtain ⟨m,n,rfl,rfl,hbits⟩ := (equal_float ht).mp he
      rw [floatCmpEq_same ((fits_float ht).mp hx) ((fits_float ht).mp hy) hbits]
    | tagged payload =>
      rcases (equal_tagged ht).mp he with ⟨rfl,rfl⟩ | ⟨x,y,rfl,rfl,hpayload⟩
      · rfl
      · rw [hash_tagged ht,hash_tagged ht]
        exact ih x (List.mem_singleton_self x) side payload y ((fits_tagged ht x).mp hx) ((fits_tagged ht y).mp hy) hpayload
    | array element =>
      rcases (equal_array ht).mp he with ⟨rfl,rfl⟩ | ⟨xs,ys,rfl,rfl,hitems⟩
      · rfl
      · rw [hash_array ht,hash_array ht]
        exact equalItems_hash 17 (fun x hmem b => ih x hmem .content element b) ((fits_array ht).mp hx) ((fits_array ht).mp hy) hitems
    | struct s =>
      obtain ⟨xs,ys,rfl,rfl,hfields⟩ := (equal_struct ht).mp he
      rw [hash_struct ht,hash_struct ht]
      split_ifs at hfields ⊢ with hown
      · exact hu.structs s _ _ hown hfields
      · have hnot := Bool.eq_false_iff.mpr hown
        exact equalFields_hash basis (fun x hmem t b => ih x hmem side t b) ((fits_struct ht).mp hx hnot) ((fits_struct ht).mp hy hnot) hfields

/-! ### The order of the operands -/

theorem floatCmpEq_symm (h : p.floatCmpEq m n = true) : p.floatCmpEq n m = true := by
  simp only [Precision.floatCmpEq,Bool.and_eq_true,Bool.or_eq_true,decide_eq_true_eq] at h ⊢
  exact ⟨h.1.symm,h.2.imp Eq.symm And.symm⟩

theorem floatCmpEq_trans {k : ℕ} (h : p.floatCmpEq m n = true) (h' : p.floatCmpEq n k = true) : p.floatCmpEq m k = true := by
  simp only [Precision.floatCmpEq,Bool.and_eq_true,Bool.or_eq_true,decide_eq_true_eq] at h h' ⊢
  refine ⟨⟨h.1.1,h'.1.2⟩,?_⟩
  rcases h.2 with rfl | ⟨hm,hn⟩
  · exact h'.2
  · rcases h'.2 with rfl | ⟨-,hk⟩
    · exact .inr ⟨hm,hn⟩
    · exact .inr ⟨hm,hk⟩

theorem objects_symm (ha : P.Accepted) (hk : P.Kept) (hu : H.PairsSymmetric P) (ht : formOf t = .classLike)
    (hx : Instance P H t a) (hy : Instance P H t b) (he : equal P H side t a b = true) : equal P H side t b a = true := by
  rw [equal_classLike ht] at he ⊢
  cases side with
  | direct => exact (compareReferences_iff ha hk hy hx).mpr (((compareReferences_iff ha hk hx hy).mp he).symm hu)
  | content => exact dynamicEquals_iff.mpr ((dynamicEquals_iff.mp he).symm hu)

theorem objects_trans (ha : P.Accepted) (hk : P.Kept) (hu : H.PairsTransitive P) (ht : formOf t = .classLike)
    (hx : Instance P H t a) (hy : Instance P H t b) (hz : Instance P H t c) (he : equal P H side t a b = true)
    (he' : equal P H side t b c = true) : equal P H side t a c = true := by
  rw [equal_classLike ht] at he he' ⊢
  cases side with
  | direct =>
    exact (compareReferences_iff ha hk hx hz).mpr
      (((compareReferences_iff ha hk hx hy).mp he).trans hu ((compareReferences_iff ha hk hy hz).mp he'))
  | content => exact dynamicEquals_iff.mpr ((dynamicEquals_iff.mp he).trans hu (dynamicEquals_iff.mp he'))

theorem equalFields_symm (h : ∀ x ∈ xs, ∀ t b, Fits P H ok t x → Fits P H ok t b → equal P H side t x b = true → equal P H side t b x = true)
    (hx : FieldsFit P H ok ts xs) (hy : FieldsFit P H ok ts ys) (he : equalFields P H side ts xs ys = true) :
    equalFields P H side ts ys xs = true := by
  induction ts generalizing xs ys with
  | nil => cases xs <;> cases ys <;> first | rfl | cases he
  | cons t ts ih =>
    cases xs with
    | nil => cases ys <;> cases he
    | cons x xs =>
      cases ys with
      | nil => cases he
      | cons y ys =>
        rw [FieldsFit] at hx hy
        rw [equalFields] at he ⊢
        have hrest := fun z hz => h z (List.mem_cons_of_mem x hz)
        split_ifs at he ⊢ with hvoid
        · exact ih hrest hx.2 hy.2 he
        · rw [Bool.and_eq_true] at he ⊢
          exact ⟨h x List.mem_cons_self t y hx.1 hy.1 he.1,ih hrest hx.2 hy.2 he.2⟩

theorem equalItems_symm (h : ∀ x ∈ xs, ∀ b, Fits P H ok element x → Fits P H ok element b → equal P H .content element x b = true →
      equal P H .content element b x = true) (hx : ItemsFit P H ok element xs) (hy : ItemsFit P H ok element ys)
    (he : equalItems P H element xs ys = true) : equalItems P H element ys xs = true := by
  induction xs generalizing ys with
  | nil => cases ys <;> first | rfl | cases he
  | cons x xs ih =>
    cases ys with
    | nil => cases he
    | cons y ys =>
      rw [ItemsFit] at hx hy
      rw [equalItems,Bool.and_eq_true] at he ⊢
      exact ⟨h x List.mem_cons_self y hx.1 hy.1 he.1,ih (fun z hz => h z (List.mem_cons_of_mem x hz)) hx.2 hy.2 he.2⟩

theorem equal_symm (ha : P.Accepted) (hk : P.Kept) (hu : H.PairsSymmetric P) (a : Value) : ∀ side t b, Fits P H ok t a → Fits P H ok t b →
    equal P H side t a b = true → equal P H side t b a = true := by
  induction a using Value.induct with
  | h a ih =>
    intro side t b hx hy he
    have hplain : formOf t = .void ∨ formOf t = .whole ∨ formOf t = .string ∨ formOf t = .pointer → equal P H side t b a = true := by
      intro ht
      obtain rfl := equal_plain ht he
      exact he
    cases ht : formOf t with
    | void => exact hplain (.inl ht)
    | whole => exact hplain (.inr (.inl ht))
    | string => exact hplain (.inr (.inr (.inl ht)))
    | pointer => exact hplain (.inr (.inr (.inr ht)))
    | classLike => exact objects_symm ha hk hu ht ((fits_classLike ht).mp hx) ((fits_classLike ht).mp hy) he
    | float p =>
      obtain ⟨m,n,rfl,rfl,hbits⟩ := (equal_float ht).mp he
      exact (equal_float ht).mpr ⟨n,m,rfl,rfl,floatCmpEq_symm hbits⟩
    | tagged payload =>
      rcases (equal_tagged ht).mp he with ⟨rfl,rfl⟩ | ⟨x,y,rfl,rfl,hpayload⟩
      · exact he
      · exact (equal_tagged ht).mpr (.inr ⟨y,x,rfl,rfl,ih x (List.mem_singleton_self x) side payload y ((fits_tagged ht x).mp hx)
          ((fits_tagged ht y).mp hy) hpayload⟩)
    | array element =>
      rcases (equal_array ht).mp he with ⟨rfl,rfl⟩ | ⟨xs,ys,rfl,rfl,hitems⟩
      · exact he
      · exact (equal_array ht).mpr (.inr ⟨ys,xs,rfl,rfl,equalItems_symm (fun x hmem b => ih x hmem .content element b)
          ((fits_array ht).mp hx) ((fits_array ht).mp hy) hitems⟩)
    | struct s =>
      obtain ⟨xs,ys,rfl,rfl,hfields⟩ := (equal_struct ht).mp he
      refine (equal_struct ht).mpr ⟨ys,xs,rfl,rfl,?_⟩
      split_ifs at hfields ⊢ with hown
      · exact hu.structs s _ _ hown hfields
      · have hnot := Bool.eq_false_iff.mpr hown
        exact equalFields_symm (fun x hmem t b => ih x hmem side t b) ((fits_struct ht).mp hx hnot) ((fits_struct ht).mp hy hnot) hfields

theorem equalFields_trans (h : ∀ x ∈ xs, ∀ t b c, Fits P H ok t x → Fits P H ok t b → Fits P H ok t c → equal P H side t x b = true →
      equal P H side t b c = true → equal P H side t x c = true) (hx : FieldsFit P H ok ts xs) (hy : FieldsFit P H ok ts ys)
    (hz : FieldsFit P H ok ts zs) (he : equalFields P H side ts xs ys = true) (he' : equalFields P H side ts ys zs = true) :
    equalFields P H side ts xs zs = true := by
  induction ts generalizing xs ys zs with
  | nil => cases xs <;> cases ys <;> first | exact he' | cases he
  | cons t ts ih =>
    cases xs with
    | nil => cases ys <;> cases he
    | cons x xs =>
      cases ys with
      | nil => cases he
      | cons y ys =>
        cases zs with
        | nil => cases he'
        | cons z zs =>
          rw [FieldsFit] at hx hy hz
          rw [equalFields] at he he' ⊢
          have hrest := fun w hw => h w (List.mem_cons_of_mem x hw)
          split_ifs at he he' ⊢ with hvoid
          · exact ih hrest hx.2 hy.2 hz.2 he he'
          · rw [Bool.and_eq_true] at he he' ⊢
            exact ⟨h x List.mem_cons_self t y z hx.1 hy.1 hz.1 he.1 he'.1,ih hrest hx.2 hy.2 hz.2 he.2 he'.2⟩

theorem equalItems_trans (h : ∀ x ∈ xs, ∀ b c, Fits P H ok element x → Fits P H ok element b → Fits P H ok element c →
      equal P H .content element x b = true → equal P H .content element b c = true → equal P H .content element x c = true)
    (hx : ItemsFit P H ok element xs) (hy : ItemsFit P H ok element ys) (hz : ItemsFit P H ok element zs)
    (he : equalItems P H element xs ys = true) (he' : equalItems P H element ys zs = true) : equalItems P H element xs zs = true := by
  induction xs generalizing ys zs with
  | nil =>
    cases ys with
    | nil => exact he'
    | cons y ys => cases he
  | cons x xs ih =>
    cases ys with
    | nil => cases he
    | cons y ys =>
      cases zs with
      | nil => cases he'
      | cons z zs =>
        rw [ItemsFit] at hx hy hz
        rw [equalItems,Bool.and_eq_true] at he he' ⊢
        exact ⟨h x List.mem_cons_self y z hx.1 hy.1 hz.1 he.1 he'.1,
          ih (fun w hw => h w (List.mem_cons_of_mem x hw)) hx.2 hy.2 hz.2 he.2 he'.2⟩

theorem equal_trans (ha : P.Accepted) (hk : P.Kept) (hu : H.PairsTransitive P) (a : Value) : ∀ side t b c, Fits P H ok t a →
    Fits P H ok t b → Fits P H ok t c → equal P H side t a b = true → equal P H side t b c = true → equal P H side t a c = true := by
  induction a using Value.induct with
  | h a ih =>
    intro side t b c hx hy hz he he'
    have hplain : formOf t = .void ∨ formOf t = .whole ∨ formOf t = .string ∨ formOf t = .pointer → equal P H side t a c = true := by
      intro ht
      obtain rfl := equal_plain ht he
      exact he'
    cases ht : formOf t with
    | void => exact hplain (.inl ht)
    | whole => exact hplain (.inr (.inl ht))
    | string => exact hplain (.inr (.inr (.inl ht)))
    | pointer => exact hplain (.inr (.inr (.inr ht)))
    | classLike => exact objects_trans ha hk hu ht ((fits_classLike ht).mp hx) ((fits_classLike ht).mp hy) ((fits_classLike ht).mp hz) he he'
    | float p =>
      obtain ⟨m,n,rfl,rfl,hbits⟩ := (equal_float ht).mp he
      obtain ⟨n',k,hn,rfl,hbits'⟩ := (equal_float ht).mp he'
      obtain rfl := Value.float.inj hn
      exact (equal_float ht).mpr ⟨m,k,rfl,rfl,floatCmpEq_trans hbits hbits'⟩
    | tagged payload =>
      rcases (equal_tagged ht).mp he with ⟨rfl,rfl⟩ | ⟨x,y,rfl,rfl,hpayload⟩
      · exact he'
      · rcases (equal_tagged ht).mp he' with ⟨hy',-⟩ | ⟨y',z,hy',rfl,hpayload'⟩
        · cases hy'
        · obtain rfl := Value.present.inj hy'
          exact (equal_tagged ht).mpr (.inr ⟨x,z,rfl,rfl,ih x (List.mem_singleton_self x) side payload y z ((fits_tagged ht x).mp hx)
            ((fits_tagged ht y).mp hy) ((fits_tagged ht z).mp hz) hpayload hpayload'⟩)
    | array element =>
      rcases (equal_array ht).mp he with ⟨rfl,rfl⟩ | ⟨xs,ys,rfl,rfl,hitems⟩
      · exact he'
      · rcases (equal_array ht).mp he' with ⟨hy',-⟩ | ⟨ys',zs,hy',rfl,hitems'⟩
        · cases hy'
        · obtain rfl := Value.array.inj hy'
          exact (equal_array ht).mpr (.inr ⟨xs,zs,rfl,rfl,equalItems_trans (fun x hmem b c => ih x hmem .content element b c)
            ((fits_array ht).mp hx) ((fits_array ht).mp hy) ((fits_array ht).mp hz) hitems hitems'⟩)
    | struct s =>
      obtain ⟨xs,ys,rfl,rfl,hfields⟩ := (equal_struct ht).mp he
      obtain ⟨ys',zs,hy',rfl,hfields'⟩ := (equal_struct ht).mp he'
      obtain rfl := Value.struct.inj hy'
      refine (equal_struct ht).mpr ⟨xs,zs,rfl,rfl,?_⟩
      split_ifs at hfields hfields' ⊢ with hown
      · exact hu.structs s _ _ _ hown hfields hfields'
      · have hnot := Bool.eq_false_iff.mpr hown
        exact equalFields_trans (fun x hmem t b c => ih x hmem side t b c) ((fits_struct ht).mp hx hnot) ((fits_struct ht).mp hy hnot)
          ((fits_struct ht).mp hz hnot) hfields hfields'

/-! ### One class with a pair of its own -/

/-- A class that declares both, and a struct of a number, a nullable text and an array of its objects. -/
def points : Program Unit Unit Unit where
  classes := {
    methodsOf _ := [⟨.named 0,[],false,false,false,true⟩,⟨.named 1,[.classType ()],false,false,false,true⟩]
    baseOf _ := none
    rank _ := 0
    rank_base h := by cases h
    declared := id
    declared_declared _ := rfl
    rank_declared _ := rfl
    methods_declared _ := rfl
    classes := [()]
    declared_mem _ := List.mem_singleton_self ()
    declared_of_mem _ _ := rfl
    interfacesOf _ := []
    interfaceLadderOf j := [j]
    interfaceMethodsOf _ := [] }
  selfType := id
  isGeneric _ := false
  interfaceTemplate := id
  fieldsOf _ := [.float .double,.optional .string,.array (.classType ())]
  declaresOwnPair _ := false

def comparing (equals : ℕ → ℕ → Bool) (hash : ℕ → Hash) : Heap Unit Unit := ⟨fun _ => (),fun _ => equals,fun _ => hash,fun _ _ _ => true,fun _ _ => 0⟩

theorem points_equals : points.declaredBehavior () .equals = some ((),1) := by decide

theorem points_hash : points.declaredBehavior () .hash = some ((),0) := by decide

theorem points_accepted : points.Accepted where
  distinct := by
    rintro ⟨⟨⟩,i⟩ ⟨⟨⟩,j⟩ - - ⟨m,m',hm,hm',hs⟩
    rcases i with _ | _ | i <;> rcases j with _ | _ | j <;> first | rfl | cases hm
    all_goals cases hm' <;> cases hs
  base_declared _ := rfl
  paired_hash _ _ := ⟨(),List.mem_cons_self,by decide⟩
  paired_equals _ _ := ⟨(),List.mem_cons_self,by decide⟩
  quiet := by
    rintro ⟨⟨⟩,i⟩ m hm -
    rcases i with _ | _ | i <;> cases hm <;> rfl
  quiet_required _ _ hm := absurd hm List.not_mem_nil

theorem points_kept : points.Kept := by
  rintro ⟨⟩ p hp
  obtain rfl := Option.some.inj (points_equals.symm.trans hp)
  decide

theorem comparing_live (equals : ℕ → ℕ → Bool) (hash : ℕ → Hash) : (comparing equals hash).Live points := by
  intro x q hq
  obtain rfl := Option.some.inj (points_hash.symm.trans hq)
  decide

theorem comparing_agree {equals : ℕ → ℕ → Bool} {hash : ℕ → Hash} (h : ∀ x y, equals x y = true → hash x = hash y) :
    (comparing equals hash).PairsAgree points where
  classes x y _ he _ := by
    obtain ⟨-,p,-,he⟩ := he
    exact h x y he
  structs _ _ _ h := by cases h

theorem points_fit (equals : ℕ → ℕ → Bool) (hash : ℕ → Hash) (x : ℕ) :
    Fits points (comparing equals hash) NotNegativeZero (.structType ()) (.struct [.float 0,.null,.array [.object x]]) := by
  refine (fits_struct rfl).mpr fun _ => ?_
  have hnull : Fits points (comparing equals hash) NotNegativeZero (.optional .string) .null := by
    rw [fits_forms]
    trivial
  have hobject : Fits points (comparing equals hash) NotNegativeZero (.classType ()) (.object x) :=
    (fits_classLike rfl).mpr fun _ _ => List.mem_cons_self
  simp only [points,FieldsFit]
  refine ⟨(fits_float rfl).mpr ⟨by decide,by decide⟩,hnull,(fits_array rfl).mpr ?_,trivial⟩
  rw [ItemsFit,ItemsFit]
  exact ⟨hobject,trivial⟩

/-- Equal values hash alike where no floating-point number the compiler compares is the negative zero, and `==` is as symmetric and as
transitive as the declared `equals` are. -/
theorem equality_agrees_with_hash (ha : P.Accepted) (hk : P.Kept) (hl : H.Live P) (hu : H.PairsAgree P) (side : Side) (t : Ty K J S) :
    (∀ a b, Fits P H NotNegativeZero t a → Fits P H NotNegativeZero t b → equal P H side t a b = true →
      hash P H side t a = hash P H side t b) ∧
    (H.PairsSymmetric P → ∀ a b, Fits P H (fun _ _ => True) t a → Fits P H (fun _ _ => True) t b →
      equal P H side t a b = equal P H side t b a) ∧
    (H.PairsTransitive P → ∀ a b c, Fits P H (fun _ _ => True) t a → Fits P H (fun _ _ => True) t b → Fits P H (fun _ _ => True) t c →
      equal P H side t a b = true → equal P H side t b c = true → equal P H side t a c = true) :=
  ⟨fun a b => hash_eq ha hk hl hu a side t b,
    fun hs a b hx hy => Bool.eq_iff_iff.mpr ⟨equal_symm ha hk hs a side t b hx hy,equal_symm ha hk hs b side t a hy hx⟩,
    fun htrans a b c => equal_trans ha hk htrans a side t b c⟩

theorem points_agree : hash points (comparing (fun x y => x % 2 = y % 2) fun x => BitVec.ofNat 64 (x % 2)) .direct (.structType ())
      (.struct [.float 0,.null,.array [.object 0]]) =
    hash points (comparing (fun x y => x % 2 = y % 2) fun x => BitVec.ofNat 64 (x % 2)) .direct (.structType ())
      (.struct [.float 0,.null,.array [.object 2]]) :=
  (equality_agrees_with_hash points_accepted points_kept (comparing_live _ _)
    (comparing_agree fun x y h => by rw [of_decide_eq_true h]) .direct (.structType ())).1 _ _ (points_fit _ _ 0) (points_fit _ _ 2) (by decide +kernel)

/-- The zeros are equal and hash apart, and a declared `equals` that goes one way only is called as it is. -/
theorem zeros_apart_one_sided :
    (equal points (comparing (fun x y => x = y) fun _ => 0) .direct (.structType ()) (.struct [.float 0,.null,.array []])
        (.struct [.float (2 ^ 63),.null,.array []]) = true ∧
      hash points (comparing (fun x y => x = y) fun _ => 0) .direct (.structType ()) (.struct [.float 0,.null,.array []]) ≠
        hash points (comparing (fun x y => x = y) fun _ => 0) .direct (.structType ()) (.struct [.float (2 ^ 63),.null,.array []])) ∧
    (comparing (fun x y => x ≤ y) fun _ => 0).PairsAgree points ∧
    equal points (comparing (fun x y => x ≤ y) fun _ => 0) .direct (.classType ()) (.object 0) (.object 1) = true ∧
    equal points (comparing (fun x y => x ≤ y) fun _ => 0) .direct (.classType ()) (.object 1) (.object 0) = false :=
  ⟨⟨by decide +kernel,by decide +kernel⟩,comparing_agree fun _ _ _ => rfl,by decide +kernel,by decide +kernel⟩

end Ens.Equality
