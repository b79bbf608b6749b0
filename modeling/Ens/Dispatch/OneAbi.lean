import Ens.Dispatch.Tables

/-! # One error interface for a slot

The methods that share a slot have one root, so they agree. Where the interfaces fail is at private roots, which share no slot with
the methods under them, and at interface methods without the marker.
-/
set_option linter.all false
namespace Ens.Dispatch.Hierarchy
variable {K J T : Type} [DecidableEq K] [DecidableEq T] {h : Hierarchy K J T} {k b : K} {p q : Place K} {m m' : Method T} {slot : ℕ}

/-! ### Places of one declaration -/

omit [DecidableEq K] [DecidableEq T] in
theorem declarationOf_declarationOf (p : Place K) : h.declarationOf (h.declarationOf p) = h.declarationOf p :=
  Prod.ext (h.declared_declared p.1) rfl

omit [DecidableEq K] [DecidableEq T] in
theorem any_erased {f : Method T → Bool} {g : Method Unit → Bool} (hf : ∀ m, f m = g m.erased) (p : Place K) :
    (h.methodAt p).any f = ((h.methodAt p).map Method.erased).any g := by
  cases h.methodAt p with
  | none => rfl
  | some m => exact hf m

omit [DecidableEq K] [DecidableEq T] in
theorem marked_congr (hd : h.declarationOf p = h.declarationOf q) : h.marked p = h.marked q := by
  have hf : ∀ m : Method T, m.declaresThrows = m.erased.declaresThrows := fun _ => rfl
  rw [marked,marked,any_erased hf,any_erased hf,erased_of_declarationOf_eq hd]

omit [DecidableEq K] [DecidableEq T] in
theorem isMethod_congr (hd : h.declarationOf p = h.declarationOf q) : h.isMethod p = h.isMethod q := by
  let g : Method Unit → Bool := fun m => !(m.isConstructor || m.isDestructor)
  have hf : ∀ m : Method T, (!(m.isConstructor || m.isDestructor)) = g m.erased := fun _ => rfl
  rw [isMethod,isMethod,any_erased hf,any_erased hf,erased_of_declarationOf_eq hd]

omit [DecidableEq K] [DecidableEq T] in
theorem isPrivate_congr (hd : h.declarationOf p = h.declarationOf q) :
    (h.methodAt p).any Method.isPrivate = (h.methodAt q).any Method.isPrivate := by
  have hf : ∀ m : Method T, m.isPrivate = m.erased.isPrivate := fun _ => rfl
  rw [any_erased hf,any_erased hf,erased_of_declarationOf_eq hd]

/-! ### Roots -/

theorem declares_congr (hs : m.sameSignature m' = true) : declares m = declares m' := by
  funext candidate
  simp only [Method.sameSignature,Bool.and_eq_true,decide_eq_true_eq] at hs
  rw [declares,declares,Method.sameSignature,Method.sameSignature,hs.1,hs.2]

omit [DecidableEq K] in
theorem isMethod_of_sameAt (hs : SameAt h p q) (hp : h.isMethod p = true) : h.isMethod q = true := by
  obtain ⟨m,m',hm,hm',hsame⟩ := hs
  simp only [Method.sameSignature,Bool.and_eq_true,decide_eq_true_eq] at hsame
  rw [isMethod,hm] at hp
  rw [isMethod,hm',Option.any_some,Method.isConstructor,Method.isDestructor,hsame.1]
  exact hp

omit [DecidableEq K] in
theorem root_eq (hs : h.Steady) (hp : h.isMethod p = true) (hsame : SameAt h p q) (hchain : p.1 ∈ h.chain q.1) :
    h.rootDeclarationOf q.1 q = h.rootDeclarationOf p.1 p := by
  rcases List.mem_cons.mp hchain with hpq | hbase
  · rw [hs.distinct p q hpq hp hsame]
  · obtain ⟨m,m',hm,hm',hsig⟩ := hsame
    obtain ⟨below,hsplit⟩ := bases_split hbase
    rw [rootDeclarationOf,rootDeclarationOf,hm,hm',Option.elim_some,Option.elim_some,hsplit,topmost_append,chain,← declares_congr hsig]
    have hself : declares m m = true := by
      rw [isMethod,hm,Option.any_some,Bool.not_eq_true'] at hp
      simp [declares,Method.sameSignature,(Bool.or_eq_false_iff.mp hp).1]
    obtain ⟨r,hr⟩ := ownWhere_isSome hm hself
    obtain ⟨hr1,c,hc,hdecl⟩ := ownWhere_some hr
    obtain rfl : p = r := hs.distinct p r hr1.symm hp ⟨m,c,hm,hc,(Bool.and_eq_true _ _ ▸ hdecl : _ ∧ _).2⟩
    exact topmost_cons_of_some hr

omit [DecidableEq K] in
theorem mem_carryingFamilies (hs : h.Steady) {d : Place K} :
    h.declarationOf d ∈ h.carryingFamilies ↔ h.ImplementsThrowing d := by
  simp only [carryingFamilies,markConformance,List.mem_flatMap,List.mem_filterMap,ImplementsThrowing]
  constructor
  · rintro ⟨k,hk,j,hj,required,hr,hd⟩
    split_ifs at hd with hthrows
    obtain ⟨q,hq,hroot⟩ := Option.map_eq_some_iff.mp hd
    exact ⟨k,hk,j,hj,required,hr,hthrows,q,hq,(hs.root q).symm.trans hroot⟩
  · rintro ⟨k,hk,j,hj,required,hr,hthrows,q,hq,hroot⟩
    refine ⟨k,hk,j,hj,required,hr,?_⟩
    rw [if_pos hthrows,hq,Option.map_some,hs.root q,hroot]

theorem abiThrows_iff (hs : h.Steady) (hp : h.isMethod p = true) : h.abiThrows p = true ↔
    h.marked (h.rootDeclarationOf p.1 p) = true ∨ h.ImplementsThrowing (h.rootDeclarationOf p.1 p) := by
  have hd : h.isMethod (h.declarationOf p) = true := (isMethod_congr (declarationOf_declarationOf p)).trans hp
  obtain ⟨m,hm,hmethod⟩ := (Option.any_eq_true _ _).mp hd
  have hroot : h.declarationOf (h.rootDeclarationOf (h.declarationOf p).1 (h.declarationOf p)) =
      h.declarationOf (h.rootDeclarationOf p.1 p) := hs.root_declared p
  rw [abiThrows,carries,hm,Option.any_some,if_neg (by simpa using hmethod),Bool.or_eq_true,decide_eq_true_eq,
    ← mem_carryingFamilies hs,hroot,marked_congr hroot]

theorem abiThrows_declarationOf (p : Place K) : h.abiThrows (h.declarationOf p) = h.abiThrows p := by
  rw [abiThrows,abiThrows,declarationOf_declarationOf]

/-! ### Routes through a table -/

/-- The holder of a slot has it, and is at or below every method of the chain that has it. -/
theorem slotHolder_some (hq : h.slotHolder k slot = some q) : q.1 ∈ h.chain k ∧ h.vtableSlotOf q = some slot ∧ h.isMethod q = true ∧
    ∀ p, h.isMethod p = true → h.vtableSlotOf p = some slot → p.1 ∈ h.chain k → p.1 ∈ h.chain q.1 := by
  obtain ⟨above,level,below,hsplit,hfound,hnone⟩ := List.findSome?_eq_some_iff.mp hq
  obtain ⟨⟨m,i⟩,he,rfl⟩ := Option.map_eq_some_iff.mp hfound
  obtain ⟨hmethod,hslot⟩ : _ ∧ _ := Bool.and_eq_true _ _ ▸ List.find?_some he
  have hm : h.methodAt (level,i) = some m := List.mk_mem_zipIdx_iff_getElem?.mp (List.mem_of_find?_eq_some he)
  refine ⟨hsplit ▸ by simp,of_decide_eq_true hslot,by rw [isMethod,hm]; exact hmethod,fun p hp hs hmem => ?_⟩
  rw [← chain_suffix hsplit]
  rw [hsplit] at hmem
  refine (List.mem_append.mp hmem).resolve_left fun habove => ?_
  obtain ⟨m',hm',hmethod'⟩ := (Option.any_eq_true _ _).mp hp
  have hno := List.find?_eq_none.mp (Option.map_eq_none_iff.mp (hnone p.1 habove)) (m',p.2) (List.mk_mem_zipIdx_iff_getElem?.mpr hm')
  exact hno (by rw [Bool.and_eq_true]; exact ⟨hmethod',decide_eq_true hs⟩)

theorem isMethod_of_slot (hs : h.vtableSlotOf p = some slot) : h.isMethod p = true := by
  have hall : ∀ levels : List K, slotIn (h.assignClass levels).1 p = some slot → h.isMethod p = true := by
    intro levels
    induction levels with
    | nil => exact nofun
    | cons k levels ih =>
      intro hs
      rcases slotIn_assignClass_cons hs with ⟨-,m,hm,ho⟩ | ⟨-,hs⟩
      · have hneed := ho.needed
        rw [needsSlot,Bool.and_eq_true] at hneed
        rw [isMethod,hm]
        exact hneed.1
      · exact ih hs
  exact hall _ hs

theorem slotImplementation_agrees (hs : h.Steady) (hp : p.1 ∈ h.chain k) (hslot : h.vtableSlotOf p = some slot)
    (hq : h.slotImplementation k slot = some q) : h.abiThrows q = h.abiThrows p := by
  obtain ⟨hholder,-⟩ := Option.filter_eq_some_iff.mp hq
  obtain ⟨hchain,hslot',hmethod',hlow⟩ := slotHolder_some hholder
  have hmethod : h.isMethod p = true := isMethod_of_slot hslot
  have hsame : SameAt h p q := by
    rw [← slotIn_chain hp] at hslot
    rw [← slotIn_chain hchain] at hslot'
    exact sameAt_of_slot hslot hslot'
  have hroot : h.rootDeclarationOf q.1 q = h.rootDeclarationOf p.1 p := root_eq hs hmethod hsame (hlow p hmethod hslot hp)
  rw [Bool.eq_iff_iff,abiThrows_iff hs hmethod,abiThrows_iff hs hmethod',hroot]

omit [DecidableEq K] in
theorem implementationOf_some {required : Method T} (hq : h.implementationOf k required = some q) :
    q.1 ∈ h.chain k ∧ h.isMethod q = true := by
  obtain ⟨hnear,-⟩ := Option.filter_eq_some_iff.mp hq
  obtain ⟨hchain,m,hm,himpl⟩ := nearest_some hnear
  refine ⟨hchain,?_⟩
  rw [isMethod,hm]
  exact (Bool.and_eq_true _ _ ▸ himpl : _ ∧ _).1

theorem implementation_carries (hs : h.Steady) {j : J} (hj : j ∈ h.conformances k) {required : Method T}
    (hr : required ∈ h.interfaceMethodsOf j) (hthrows : required.declaresThrows = true) (hq : h.implementationOf k required = some q) :
    h.abiThrows q = true := by
  obtain ⟨j',hj',required',hr',hthrows',q',hq',hd⟩ := hs.provided k j hj required hr hthrows q hq
  refine (abiThrows_iff hs (implementationOf_some hq).2).mpr (.inr ⟨_,h.declared_mem k,j',hj',required',hr',hthrows',q',hq',?_⟩)
  have hdeclared : h.declared q'.1 = h.declared q.1 := congrArg Prod.fst hd
  calc h.declarationOf (h.rootDeclarationOf q'.1 q') = h.declarationOf (h.rootDeclarationOf (h.declared q'.1) (h.declarationOf q')) :=
        (hs.root_declared q').symm
    _ = h.declarationOf (h.rootDeclarationOf (h.declared q.1) (h.declarationOf q)) := by rw [hd,hdeclared]
    _ = h.declarationOf (h.rootDeclarationOf q.1 q) := hs.root_declared q

/-! ### Roots of throwing methods -/

omit [DecidableEq K] in
/-- A root that is not private is overridden, so it is marked where a method under it is. -/
theorem root_marked (hs : h.Steady) (ha : h.Accepted) (hp : h.isMethod p = true) (hmark : h.marked p = true)
    (hpublic : (h.methodAt (h.rootDeclarationOf p.1 p)).any Method.isPrivate = false) : h.marked (h.rootDeclarationOf p.1 p) = true := by
  induction hr : h.rank p.1 using Nat.strong_induction_on generalizing p with
  | _ n ih =>
    -- The declaration of the place has the same root.
    have hroot : h.declarationOf (h.rootDeclarationOf (h.declarationOf p).1 (h.declarationOf p)) =
        h.declarationOf (h.rootDeclarationOf p.1 p) := hs.root_declared p
    generalize hd : h.declarationOf p = d at hroot
    have hdd : h.declarationOf d = h.declarationOf p := hd ▸ declarationOf_declarationOf p
    have hdm : h.isMethod d = true := (isMethod_congr hdd).trans hp
    have hdk : h.marked d = true := (marked_congr hdd).trans hmark
    have hdr : h.rank d.1 = n := by rw [← hd,← hr]; exact h.rank_declared p.1
    have hmem : d.1 ∈ h.classes := hd ▸ h.declared_mem p.1
    rw [← marked_congr hroot]
    rw [← isPrivate_congr hroot] at hpublic
    obtain ⟨m,hm,hthrows⟩ := (Option.any_eq_true _ _).mp hdk
    have htop : h.rootDeclarationOf d.1 d = h.topmost (declares m) (h.bases d.1) d := by rw [rootDeclarationOf,hm,Option.elim_some]
    rcases topmost_eq_or (declares m) (h.bases d.1) d with hself | ⟨hin,c,hc,hdecl⟩
    · rw [htop,hself]
      exact hdk
    · rw [← htop] at hin hc
      have hsig : m.sameSignature c = true := (Bool.and_eq_true _ _ ▸ hdecl : _ ∧ _).2
      have hvisible : c.isPrivate = false := by
        rw [hc,Option.any_some] at hpublic
        exact hpublic
      obtain ⟨q,hq⟩ := nearest_isSome (fun c => m.sameSignature c && !c.isPrivate) hin hc (by simp [hsig,hvisible])
      have hqmark : h.marked q = true := ha d.1 hmem d rfl m hm hthrows q hq
      obtain ⟨hqin,c',hc',hq'⟩ := nearest_some hq
      have hsame : SameAt h d q := ⟨m,c',hm,hc',(Bool.and_eq_true _ _ ▸ hq' : _ ∧ _).1⟩
      have hqm : h.isMethod q = true := isMethod_of_sameAt hsame hdm
      have hup : h.rootDeclarationOf d.1 d = h.rootDeclarationOf q.1 q := root_eq hs hqm hsame.symm (List.mem_cons_of_mem _ hqin)
      rw [hup] at hpublic ⊢
      exact ih _ (hdr ▸ rank_lt_of_mem_bases hqin) hqm hqmark hpublic rfl

def twoClasses (base sub : Method Unit) (required : Option (Method Unit)) : Hierarchy Bool Unit Unit where
  methodsOf k := [if k then sub else base]
  baseOf k := if k then some false else none
  rank k := if k then 1 else 0
  rank_base {k b} hb := by
    cases k with
    | false => cases hb
    | true =>
      cases hb
      exact Nat.one_pos
  declared := id
  declared_declared _ := rfl
  rank_declared _ := rfl
  methods_declared _ := rfl
  classes := [false,true]
  declared_mem k := by cases k <;> simp
  declared_of_mem _ _ := rfl
  interfacesOf k := if k && required.isSome then [()] else []
  interfaceLadderOf j := [j]
  interfaceMethodsOf _ := required.toList

def run (declaresThrows isPrivate isOverride : Bool) : Method Unit := ⟨.named 0,[],declaresThrows,isPrivate,false,isOverride⟩

def overridden : Hierarchy Bool Unit Unit := twoClasses (run true false false) (run false false true) (some (run true false false))

def shadowed : Hierarchy Bool Unit Unit := twoClasses (run false true false) (run true false false) none

theorem place_twoClasses {base sub : Method Unit} {required : Option (Method Unit)} {p : Place Bool} {m : Method Unit}
    (hm : (twoClasses base sub required).methodAt p = some m) : p = (p.1,0) := by
  obtain ⟨k,i⟩ := p
  have hlt : i < 1 := (List.getElem?_eq_some_iff.mp hm).1
  rw [Nat.lt_one_iff.mp hlt]

theorem steady_overridden : overridden.Steady where
  distinct p q hk _ hs := by
    obtain ⟨m,m',hm,hm',-⟩ := hs
    rw [place_twoClasses hm,place_twoClasses hm',hk]
  root _ := rfl
  root_declared _ := rfl
  provided k j hj required hr _ q hq := by
    obtain rfl : k = true := by
      cases k with
      | false => cases hj
      | true => rfl
    obtain rfl : required = run true false false := List.mem_singleton.mp hr
    obtain rfl : q = (true,0) := Option.some.inj (hq.symm.trans (by decide))
    exact ⟨j,hj,_,hr,rfl,(true,0),by decide,rfl⟩

theorem accepted_overridden : overridden.Accepted := by
  rintro k - p rfl m hm hthrows q hq
  obtain ⟨hin,-⟩ := nearest_some hq
  obtain ⟨k,i⟩ := p
  cases k with
  | false => cases hin
  | true =>
    obtain ⟨-,rfl⟩ := Prod.mk.inj (place_twoClasses hm)
    obtain rfl : run false false true = m := Option.some.inj hm
    cases hthrows

end Ens.Dispatch.Hierarchy
