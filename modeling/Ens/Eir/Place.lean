import Mathlib.Data.Int.Notation
import Mathlib.Data.List.Infix
import Mathlib.Data.Set.Lattice
import Mathlib.Order.CompletePartialOrder
import Mathlib.Tactic.Ring

/-! # Places

A place is a root and a path from it to a part of its storage. Two places are compared by their roots and then step by step. What they name
is found in a memory of separate regions, each laid out by its type.
-/
set_option linter.all false
namespace Ens.Eir

inductive PlaceRoot
  | slot | receiver | array | object
  deriving DecidableEq

inductive PlaceStepKind
  | field | element | payload
  deriving DecidableEq

/-- A step into a part: the index of a field, the temp with the index of an element, or the payload of an optional. -/
structure PlaceStep where
  kind : PlaceStepKind
  value : ℤ
  deriving DecidableEq

def PlaceStep.isField (step : PlaceStep) : Bool := step.kind = .field

/-- A place. Its root is a slot by its id, or the temp that holds the receiver's address, the array or the object. -/
structure Place where
  root : PlaceRoot
  rootId : ℤ
  steps : List PlaceStep
  deriving DecidableEq

inductive PlaceRelation
  | same | different | unknown
  deriving DecidableEq

/-- The steps of two paths from one root, of which those before are the same up to the temps of their elements. -/
def relateSteps : List PlaceStep → List PlaceStep → Bool → PlaceRelation
  | a :: first, b :: second, exact =>
    if a.kind ≠ b.kind then .unknown
    else if a.isField then if a.value ≠ b.value then .different else relateSteps first second exact
    else if a.kind = .element ∧ a.value ≠ b.value then relateSteps first second false
    else relateSteps first second exact
  | [], [], exact => if exact then .same else .unknown
  | _, _, _ => .unknown

def relate (first second : Place) : PlaceRelation :=
  if first.root ≠ second.root then
    if first.root = .receiver ∨ second.root = .receiver then .unknown else .different
  else if first.rootId ≠ second.rootId then
    match first.root with
    | .slot => .different
    | _ => .unknown
  else relateSteps first.steps second.steps true

/-! ### Storage -/

/-- The types of values and where the parts of a value are in its bytes. An array's type says how many elements it has. -/
structure Layout where
  Ty : Type
  size : Ty → ℕ
  field : Ty → ℤ → Option (ℕ × Ty)
  payload : Ty → Option (ℕ × Ty)
  element : Ty → Option (ℕ × Ty)
  fieldWithin : ∀ t k offset u, field t k = some (offset,u) → offset + size u ≤ size t
  fieldsApart : ∀ t k l offset u offset' u', k ≠ l → field t k = some (offset,u) → field t l = some (offset',u') →
    offset + size u ≤ offset' ∨ offset' + size u' ≤ offset
  payloadWithin : ∀ t offset u, payload t = some (offset,u) → offset + size u ≤ size t
  elementsWithin : ∀ t count u, element t = some (count,u) → count * size u ≤ size t

variable {L : Layout}

structure Region (L : Layout) where
  address : ℕ
  type : L.Ty

def Region.bytes (r : Region L) : Set ℕ := {x | r.address ≤ x ∧ x < r.address + L.size r.type}

inductive Allocation
  | slot (id : ℤ)
  | array (reference : ℤ)
  | object (reference : ℤ)
  deriving DecidableEq

/-- A memory keeps its allocations apart. The storage behind an address may be anywhere, in any of them. -/
structure Memory (L : Layout) where
  allocated : Allocation → Option (Region L)
  behind : ℤ → Option (Region L)
  apart : ∀ a b r r', a ≠ b → allocated a = some r → allocated b = some r' → Disjoint r.bytes r'.bytes

abbrev Valuation := ℤ → ℤ

def Place.rootRegion (M : Memory L) (ρ : Valuation) (p : Place) : Option (Region L) :=
  match p.root with
  | .slot => M.allocated (.slot p.rootId)
  | .receiver => M.behind (ρ p.rootId)
  | .array => M.allocated (.array (ρ p.rootId))
  | .object => M.allocated (.object (ρ p.rootId))

def Region.part (ρ : Valuation) (r : Region L) (step : PlaceStep) : Option (Region L) :=
  match step.kind with
  | .field => (L.field r.type step.value).map fun (offset,type) => ⟨r.address + offset,type⟩
  | .payload => (L.payload r.type).map fun (offset,type) => ⟨r.address + offset,type⟩
  | .element => (L.element r.type).bind fun (count,type) =>
    if 0 ≤ ρ step.value ∧ ρ step.value < count then some ⟨r.address + (ρ step.value).toNat * L.size type,type⟩ else none

def Region.along (ρ : Valuation) (r : Region L) (steps : List PlaceStep) : Option (Region L) := steps.foldlM (Region.part ρ) r

def Place.storage (M : Memory L) (ρ : Valuation) (p : Place) : Option (Region L) := (p.rootRegion M ρ).bind fun r => r.along ρ p.steps

/-! ### Parts -/

variable {ρ : Valuation} {r r' x y : Region L} {a b : PlaceStep} {first second : List PlaceStep} {exact : Bool}

theorem Region.part_subset (h : r.part ρ a = some x) : x.bytes ⊆ r.bytes := by
  have hwithin : r.address ≤ x.address ∧ x.address + L.size x.type ≤ r.address + L.size r.type := by
    rw [Region.part] at h
    cases hkind : a.kind with
    | field =>
      rw [hkind] at h
      obtain ⟨⟨offset,u⟩,hfield,rfl⟩ := Option.map_eq_some_iff.mp h
      have hle := L.fieldWithin _ _ _ _ hfield
      dsimp only
      omega
    | payload =>
      rw [hkind] at h
      obtain ⟨⟨offset,u⟩,hpayload,rfl⟩ := Option.map_eq_some_iff.mp h
      have hle := L.payloadWithin _ _ _ hpayload
      dsimp only
      omega
    | element =>
      rw [hkind] at h
      obtain ⟨⟨count,u⟩,helement,h⟩ := Option.bind_eq_some_iff.mp h
      have hle := L.elementsWithin _ _ _ helement
      dsimp only at h
      split_ifs at h with hindex
      cases h
      have hmul : ((ρ a.value).toNat + 1) * L.size u ≤ count * L.size u := Nat.mul_le_mul_right _ (by omega)
      have hexpand : ((ρ a.value).toNat + 1) * L.size u = (ρ a.value).toNat * L.size u + L.size u := by ring
      dsimp only
      omega
  exact fun z hz => ⟨hwithin.1.trans hz.1,hz.2.trans_le hwithin.2⟩

theorem Region.along_subset : ∀ {steps : List PlaceStep} {r : Region L}, r.along ρ steps = some x → x.bytes ⊆ r.bytes
  | [], r, h => by
    cases h
    exact subset_rfl
  | step :: steps, r, h => by
    obtain ⟨part,hpart,h⟩ := Option.bind_eq_some_iff.mp h
    exact (along_subset h).trans (part_subset hpart)

theorem Region.fields_apart (ha : a.kind = .field) (hb : b.kind = .field) (hne : a.value ≠ b.value) (hx : r.part ρ a = some x)
    (hy : r.part ρ b = some y) : Disjoint x.bytes y.bytes := by
  rw [Region.part,ha] at hx
  rw [Region.part,hb] at hy
  obtain ⟨⟨offset,u⟩,hfield,rfl⟩ := Option.map_eq_some_iff.mp hx
  obtain ⟨⟨offset',u'⟩,hfield',rfl⟩ := Option.map_eq_some_iff.mp hy
  refine Set.disjoint_left.mpr fun z hz hz' => ?_
  obtain ⟨h1,h2⟩ := hz
  obtain ⟨h3,h4⟩ := hz'
  dsimp only at h1 h2 h3 h4
  rcases L.fieldsApart _ _ _ _ _ _ _ hne hfield hfield' with h | h <;> omega

theorem Region.elements_apart (ha : a.kind = .element) (hb : b.kind = .element) (hx : r.part ρ a = some x) (hy : r.part ρ b = some y) :
    x = y ∨ Disjoint x.bytes y.bytes := by
  rw [Region.part,ha] at hx
  rw [Region.part,hb] at hy
  obtain ⟨⟨count,u⟩,helement,hx⟩ := Option.bind_eq_some_iff.mp hx
  rw [helement,Option.bind_some] at hy
  dsimp only at hx hy
  split_ifs at hx hy with hi hj
  cases hx
  cases hy
  by_cases hsame : (ρ a.value).toNat = (ρ b.value).toNat
  · rw [hsame]
    exact Or.inl rfl
  · refine Or.inr (Set.disjoint_left.mpr fun z hz hz' => ?_)
    obtain ⟨h1,h2⟩ := hz
    obtain ⟨h3,h4⟩ := hz'
    dsimp only at h1 h2 h3 h4
    have hstep : ∀ i j : ℕ, i < j → i * L.size u + L.size u ≤ j * L.size u := fun i j hij => by
      have hmul : (i + 1) * L.size u ≤ j * L.size u := Nat.mul_le_mul_right _ hij
      have hexpand : (i + 1) * L.size u = i * L.size u + L.size u := by ring
      omega
    rcases Nat.lt_or_gt_of_ne hsame with hlt | hlt
    · have hle := hstep _ _ hlt
      omega
    · have hle := hstep _ _ hlt
      omega

/-! ### Comparing paths -/

theorem Region.part_congr (hkind : a.kind = b.kind) (hvalue : a.kind = .payload ∨ a.value = b.value) : r.part ρ a = r.part ρ b := by
  rw [Region.part,Region.part,← hkind]
  cases ha : a.kind with
  | payload => rfl
  | field | element => rw [hvalue.resolve_left (by rw [ha]; decide)]

/-- What a pair of steps of one kind does to the comparison: it ends it at two fields, or the steps name one part, or they are elements at
two temps. -/
theorem relateSteps_cons (first second : List PlaceStep) (exact : Bool) (hkind : a.kind = b.kind) : (a.kind = .field ∧ a.value ≠ b.value ∧ relateSteps (a :: first) (b :: second) exact = .different)
    ∨ ((a.kind = .payload ∨ a.value = b.value) ∧ relateSteps (a :: first) (b :: second) exact = relateSteps first second exact)
    ∨ (a.kind = .element ∧ relateSteps (a :: first) (b :: second) exact = relateSteps first second false) := by
  rw [relateSteps,if_neg (not_not.mpr hkind)]
  by_cases hvalue : a.value = b.value
  · refine Or.inr (Or.inl ⟨Or.inr hvalue,?_⟩)
    have hnot : ¬(a.kind = .element ∧ a.value ≠ b.value) := fun h => h.2 hvalue
    rw [if_neg (not_not.mpr hvalue),if_neg hnot,ite_self]
  · cases ha : a.kind with
    | field =>
      refine Or.inl ⟨rfl,hvalue,?_⟩
      have hisField : a.isField = true := decide_eq_true ha
      rw [if_pos hisField,if_pos hvalue]
    | payload =>
      refine Or.inr (Or.inl ⟨Or.inl rfl,?_⟩)
      rw [if_neg (by rw [PlaceStep.isField,ha]; decide),if_neg fun h => by cases h.1]
    | element =>
      refine Or.inr (Or.inr ⟨rfl,?_⟩)
      rw [if_neg (by rw [PlaceStep.isField,ha]; decide),if_pos ⟨rfl,hvalue⟩]

theorem relateSteps_kinds (hkind : a.kind ≠ b.kind) : relateSteps (a :: first) (b :: second) exact = .unknown := by
  rw [relateSteps,if_pos hkind]

theorem relateSteps_same : ∀ {first second : List PlaceStep} {exact : Bool} {r : Region L}, relateSteps first second exact = .same →
    exact = true ∧ r.along ρ first = r.along ρ second
  | [], [], exact, r, h => by
    cases exact with
    | true => exact ⟨rfl,rfl⟩
    | false => cases h
  | [], _ :: _, _, _, h => by cases h
  | _ :: _, [], _, _, h => by cases h
  | a :: first, b :: second, exact, r, h => by
    by_cases hkind : a.kind = b.kind
    · rcases relateSteps_cons first second exact hkind with ⟨-,-,he⟩ | ⟨hvalue,he⟩ | ⟨-,he⟩
      · rw [he] at h
        cases h
      · rw [he] at h
        refine ⟨(relateSteps_same (r := r) h).1,?_⟩
        have hpart : r.part ρ a = r.part ρ b := Region.part_congr hkind hvalue
        rw [Region.along,Region.along,List.foldlM_cons,List.foldlM_cons,hpart]
        exact congrArg _ (funext fun part => (relateSteps_same h).2)
      · rw [he] at h
        exact absurd (relateSteps_same (r := r) h).1 Bool.false_ne_true
    · rw [relateSteps_kinds hkind] at h
      cases h

theorem relateSteps_different : ∀ {first second : List PlaceStep} {exact : Bool} {r : Region L}, relateSteps first second exact = .different →
    r.along ρ first = some x → r.along ρ second = some y → Disjoint x.bytes y.bytes
  | [], [], exact, _, h, _, _ => by cases exact <;> cases h
  | [], _ :: _, _, _, h, _, _ => by cases h
  | _ :: _, [], _, _, h, _, _ => by cases h
  | a :: first, b :: second, exact, r, h, hx, hy => by
    obtain ⟨x',hx',hx⟩ := Option.bind_eq_some_iff.mp hx
    obtain ⟨y',hy',hy⟩ := Option.bind_eq_some_iff.mp hy
    have hinside : Disjoint x'.bytes y'.bytes → Disjoint x.bytes y.bytes := fun hd =>
      hd.mono (Region.along_subset hx) (Region.along_subset hy)
    by_cases hkind : a.kind = b.kind
    · rcases relateSteps_cons first second exact hkind with ⟨hfield,hne,-⟩ | ⟨hvalue,he⟩ | ⟨helement,he⟩
      · exact hinside (Region.fields_apart hfield (hkind ▸ hfield) hne hx' hy')
      · rw [he] at h
        have hpart : r.part ρ a = r.part ρ b := Region.part_congr hkind hvalue
        cases (hx'.symm.trans hpart).trans hy'
        exact relateSteps_different h hx hy
      · rw [he] at h
        rcases Region.elements_apart helement (hkind ▸ helement) hx' hy' with rfl | hd
        · exact relateSteps_different h hx hy
        · exact hinside hd
    · rw [relateSteps_kinds hkind] at h
      cases h

/-- A path is not found different from one that goes on from where it ends, nor from the same path. -/
theorem relateSteps_prefix : ∀ {first second : List PlaceStep} {exact : Bool}, first <+: second ∨ second <+: first →
    relateSteps first second exact ≠ .different
  | [], [], exact, _, h => by cases exact <;> cases h
  | [], _ :: _, _, _, h => by cases h
  | _ :: _, [], _, _, h => by cases h
  | a :: first, b :: second, exact, hwithin', h => by
    have hsplit : a = b ∧ (first <+: second ∨ second <+: first) := by
      rcases hwithin' with hp | hp
      · obtain ⟨heq,hp⟩ := List.cons_prefix_cons.mp hp
        exact ⟨heq,Or.inl hp⟩
      · obtain ⟨heq,hp⟩ := List.cons_prefix_cons.mp hp
        exact ⟨heq.symm,Or.inr hp⟩
    obtain ⟨rfl,hp⟩ := hsplit
    rcases relateSteps_cons (a := a) first second exact rfl with ⟨-,hne,-⟩ | ⟨-,he⟩ | ⟨-,he⟩
    · exact hne rfl
    · exact relateSteps_prefix hp (he ▸ h)
    · exact relateSteps_prefix hp (he ▸ h)

/-! ### Comparing places -/

variable {M : Memory L} {p q : Place}

theorem relate_steps (hroot : p.root = q.root) (hid : p.rootId = q.rootId) : relate p q = relateSteps p.steps q.steps true := by
  rw [relate,if_neg (not_not.mpr hroot),if_neg (not_not.mpr hid)]

theorem rootRegion_congr (hroot : p.root = q.root) (hid : p.rootId = q.rootId) : p.rootRegion M ρ = q.rootRegion M ρ := by
  rw [Place.rootRegion,Place.rootRegion,hroot,hid]

def Allocation.root : Allocation → PlaceRoot
  | .slot _ => .slot
  | .array _ => .array
  | .object _ => .object

theorem rootRegion_allocated (h : p.root ≠ .receiver) : ∃ a : Allocation, a.root = p.root ∧ p.rootRegion M ρ = M.allocated a := by
  rw [Place.rootRegion]
  cases hp : p.root with
  | slot => exact ⟨.slot p.rootId,rfl,rfl⟩
  | receiver => exact absurd hp h
  | array => exact ⟨.array (ρ p.rootId),rfl,rfl⟩
  | object => exact ⟨.object (ρ p.rootId),rfl,rfl⟩

/-- The roots of two places that are told apart are separate allocations, or the places have one root. -/
theorem relate_roots (h : relate p q ≠ .unknown) : (p.root = q.root ∧ p.rootId = q.rootId)
    ∨ relate p q = .different ∧ ∃ a b, a ≠ b ∧ p.rootRegion M ρ = M.allocated a ∧ q.rootRegion M ρ = M.allocated b := by
  rw [relate] at h ⊢
  by_cases hroot : p.root = q.root
  · by_cases hid : p.rootId = q.rootId
    · exact Or.inl ⟨hroot,hid⟩
    · rw [if_neg (not_not.mpr hroot),if_pos hid] at h ⊢
      cases hp : p.root with
      | slot =>
        have hq := hroot.symm.trans hp
        refine Or.inr ⟨rfl,.slot p.rootId,.slot q.rootId,fun he => hid (Allocation.slot.inj he),?_,?_⟩
        · rw [Place.rootRegion,hp]
        · rw [Place.rootRegion,hq]
      | receiver | array | object =>
        rw [hp] at h
        exact (h rfl).elim
  · rw [if_pos hroot] at h ⊢
    by_cases hreceiver : p.root = .receiver ∨ q.root = .receiver
    · rw [if_pos hreceiver] at h
      exact (h rfl).elim
    · rw [if_neg hreceiver]
      obtain ⟨a,ha,hregion⟩ := rootRegion_allocated (M := M) (ρ := ρ) fun hp => hreceiver (Or.inl hp)
      obtain ⟨b,hb,hregion'⟩ := rootRegion_allocated (M := M) (ρ := ρ) fun hq => hreceiver (Or.inr hq)
      exact Or.inr ⟨rfl,a,b,fun he => hroot (ha.symm.trans (he ▸ hb)),hregion,hregion'⟩

/-- A comparison of two places is sound in every memory and for every value of the temps: places found the same have one storage, places
found different have storages without a byte in common, and a place is not found different from one that is inside of it. -/
theorem relate_sound (p q : Place) :
    (relate p q = .same → ∀ (L : Layout) (M : Memory L) (ρ : Valuation), p.storage M ρ = q.storage M ρ) ∧
    (relate p q = .different → ∀ (L : Layout) (M : Memory L) (ρ : Valuation) (x y : Region L), p.storage M ρ = some x →
      q.storage M ρ = some y → Disjoint x.bytes y.bytes) ∧
    (p.root = q.root → p.rootId = q.rootId → p.steps <+: q.steps ∨ q.steps <+: p.steps → relate p q ≠ .different) := by
  refine ⟨fun h L M ρ => ?_,fun h L M ρ x y hx hy => ?_,fun hroot hid hwithin' => ?_⟩
  · rcases relate_roots (M := M) (ρ := ρ) (by rw [h]; decide) with ⟨hroot,hid⟩ | ⟨hdifferent,-⟩
    · rw [relate_steps hroot hid] at h
      rw [Place.storage,Place.storage,rootRegion_congr hroot hid]
      exact congrArg _ (funext fun r => (relateSteps_same h).2)
    · rw [h] at hdifferent
      cases hdifferent
  · obtain ⟨r,hr,hx⟩ := Option.bind_eq_some_iff.mp hx
    obtain ⟨r',hr',hy⟩ := Option.bind_eq_some_iff.mp hy
    rcases relate_roots (M := M) (ρ := ρ) (by rw [h]; decide) with ⟨hroot,hid⟩ | ⟨-,a,b,hne,ha,hb⟩
    · rw [relate_steps hroot hid] at h
      rw [rootRegion_congr hroot hid] at hr
      cases hr.symm.trans hr'
      exact relateSteps_different h hx hy
    · have hapart := M.apart a b r r' hne (ha.symm.trans hr) (hb.symm.trans hr')
      exact hapart.mono (Region.along_subset hx) (Region.along_subset hy)
  · rw [relate_steps hroot hid]
    exact relateSteps_prefix hwithin'

end Ens.Eir
