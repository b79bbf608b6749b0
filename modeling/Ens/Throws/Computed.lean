import Ens.Throws.Facts

/-! # Computed sets

The set computed for a callable holds what the rules give from the sets of the registry, where the markers that count are those of
the functions whose contracts are empty there.
-/
set_option linter.all false
namespace Ens.Throws
open ThrowSet
variable {D T : Type} [DecidableEq D] [DecidableEq T] {h : Types D T} {r : Registry h} {scope : Option D} {s into : ThrowSet h} {f : Fact T}

def factsOf (r : Registry h) : Facts D T := fun d f => (r d).Holds f

/-- A function with an empty contract, whose marker is all its callers have. -/
def Silent (h : Types D T) (S : Facts D T) (signature : Signature D T) : Prop := ∀ f, ¬contractFacts h S signature f

omit [DecidableEq D] [DecidableEq T] in
theorem holds_foldl {α : Type} {g : ThrowSet h → α → ThrowSet h} {P : α → Fact T → Prop}
    (hg : ∀ s x, (g s x).Holds f ↔ s.Holds f ∨ P x f) (xs : List α) (s : ThrowSet h) :
    (xs.foldl g s).Holds f ↔ s.Holds f ∨ ∃ x ∈ xs, P x f := by
  induction xs generalizing s with
  | nil => simp
  | cons x xs ih =>
    rw [List.foldl_cons,ih,hg]
    simp [or_assoc]

/-! ### Contracts -/

omit [DecidableEq D] in
theorem holds_throwSetOf {declared : List T} : (throwSetOf declared : ThrowSet h).Holds f ↔ ∃ t ∈ declared, thrownAs h t f := by
  rw [throwSetOf,holds_foldl (P := thrownAs h) fun _ _ => holds_addThrown]
  simp [not_holds_empty]

omit [DecidableEq D] in
theorem holds_contractOf {signature : Signature D T} : (contractOf r signature).Holds f ↔ contractFacts h (factsOf r) signature f := by
  rw [contractOf,contractFacts]
  split_ifs
  · exact holds_throwSetOf
  · exact iff_of_false not_holds_empty id
  · cases signature.declaration with
    | none => exact iff_of_false not_holds_empty id
    | some d => exact Iff.rfl

omit [DecidableEq D] in
theorem silent_iff {signature : Signature D T} : (contractOf r signature).raisesNothing = true ↔ Silent h (factsOf r) signature := by
  rw [raisesNothing_iff]
  exact forall_congr' fun f => not_congr holds_contractOf

omit [DecidableEq D] in
theorem holds_contractFor {signature : Signature D T} :
    (contractFor r signature).Holds f ↔ markedFacts h (Silent h (factsOf r)) (factsOf r) signature f := by
  have hc : ∀ {f}, (contractOf r signature).Holds f ↔ contractFacts h (factsOf r) signature f := holds_contractOf
  rw [contractFor,markedFacts,← hc,← hc,← silent_iff]
  cases hm : signature.declaresThrows with
  | false => simp
  | true =>
    cases hn : (contractOf r signature).raisesNothing with
    | true =>
      have hnone := raisesNothing_iff.mp hn
      have hadd : (addUnresolved (.empty : ThrowSet h)).1.Holds f ↔ f = .unresolved := by
        rw [(addUnresolved_adds _).holds]
        simp [not_holds_empty]
      simp [hadd,hnone]
    | false =>
      cases hu : (contractOf r signature).holdsUnresolved with
      | false =>
        have hnu : ¬(contractOf r signature).Holds .unresolved := fun hh => Bool.false_ne_true (hu.symm.trans hh)
        simp [hnu]
      | true =>
        have hhu : (contractOf r signature).Holds .unresolved := hu
        simp only [Bool.and_false,Bool.false_eq_true,if_false,Bool.not_true,Bool.or_false,hhu,and_true,and_false,or_false]
        rw [(addCertainUnresolved_adds _).holds,(addAll_adds _ _).holds]
        have hone : f = .unresolved → (contractOf r signature).Holds f := fun he => he ▸ hhu
        simp only [not_holds_empty,false_or,true_and]
        exact ⟨fun hf => hf.elim .inl fun hf => hf.elim (fun he => .inl (hone he)) .inr,fun hf => hf.imp_right .inr⟩

omit [DecidableEq D] in
theorem holds_addRaised {t : T} : (addRaised scope into t).Holds f ↔ into.Holds f ∨ raisedAs h scope t f := by
  rw [addRaised,raisedAs]
  cases h.errorBase with
  | none => exact holds_addThrown
  | some base =>
    dsimp only
    split_ifs
    · exact (addUnresolved_adds into).holds f
    · exact holds_addThrown

omit [DecidableEq D] in
theorem holds_addLambdaThrows {lambda : D} :
    (addLambdaThrows scope r into lambda).Holds f ↔ into.Holds f ∨ lambdaFacts h scope (factsOf r) lambda f := by
  rw [addLambdaThrows,holds_foldl (P := raisedAs h scope) fun _ _ => holds_addRaised,(addUnresolvedOf_adds _ _).holds,or_assoc]
  rfl

omit [DecidableEq D] in
theorem holds_addPending {entry : T} :
    (addPending scope r into entry).Holds f ↔ into.Holds f ∨ pendingFacts h scope (factsOf r) entry f := by
  rw [addPending,pendingFacts]
  cases h.pending entry with
  | none => exact holds_addRaised
  | some lambda =>
    dsimp only
    cases h.pendingUse lambda with
    | none => exact holds_addLambdaThrows
    | some members => exact holds_foldl (P := raisedAs h scope) (fun _ _ => holds_addRaised) members into

omit [DecidableEq D] in
theorem holds_addSubstituted {raised : T} :
    (addSubstituted scope r into raised).Holds f ↔ into.Holds f ∨ substitutedFacts h scope (factsOf r) raised f := by
  rw [addSubstituted,substitutedFacts]
  cases h.pending raised with
  | none => exact holds_addRaised
  | some lambda => exact holds_addLambdaThrows

omit [DecidableEq D] in
theorem mem_foldl_push (xs acc : List T) (t : T) :
    t ∈ xs.foldl (fun substituted t => if t ∈ substituted then substituted else substituted ++ [t]) acc ↔ t ∈ acc ∨ t ∈ xs := by
  induction xs generalizing acc with
  | nil => simp
  | cons x xs ih =>
    rw [List.foldl_cons,ih,List.mem_cons,← or_assoc]
    refine or_congr_left ?_
    split_ifs with hx
    · exact ⟨.inl,fun ht => ht.elim id fun he => he ▸ hx⟩
    · rw [List.mem_append,List.mem_singleton]

theorem mem_substituteThrown {thrownList arguments : List T} {owner : D} {t : T} :
    t ∈ substituteThrown h thrownList owner arguments ↔ ∃ entry ∈ thrownList, t ∈ replacements h owner arguments entry := by
  have hall : ∀ acc : List T, t ∈ thrownList.foldl (fun substituted entry => (replacements h owner arguments entry).foldl
      (fun substituted t => if t ∈ substituted then substituted else substituted ++ [t]) substituted) acc ↔
        t ∈ acc ∨ ∃ entry ∈ thrownList, t ∈ replacements h owner arguments entry := by
    induction thrownList with
    | nil => simp
    | cons entry rest ih =>
      intro acc
      rw [List.foldl_cons,ih,mem_foldl_push]
      simp [or_assoc]
  rw [substituteThrown,hall]
  simp

theorem holds_withoutOpenParameters {contract : ThrowSet h} {owner : D} : (withoutOpenParameters contract owner).Holds f ↔
    UnresolvedOf contract.Holds f ∨ ∃ t, contract.Holds (.member t) ∧
      heldAs h (if (h.param t).map Prod.fst = some owner then h.errorType else t) f := by
  have hone : ∀ (kept : ThrowSet h) (t : T),
      (if (h.param t).map Prod.fst = some owner then (kept.add h.errorType).1 else (kept.add t).1).Holds f ↔
        kept.Holds f ∨ heldAs h (if (h.param t).map Prod.fst = some owner then h.errorType else t) f := by
    intro kept t
    split_ifs
    · exact (add_adds kept h.errorType).holds f
    · exact (add_adds kept t).holds f
  rw [withoutOpenParameters,holds_foldl hone,(addUnresolvedOf_adds _ _).holds]
  simp only [not_holds_empty,false_or]
  rfl

theorem holds_callContract {call : Call D T} :
    (callContract scope r call).Holds f ↔ callFacts h (Silent h (factsOf r)) scope (factsOf r) call f := by
  rw [callContract,callFacts]
  cases call.target with
  | none => exact holds_throwSetOf
  | some target =>
    have hmarked : (contractFor r target).Holds = markedFacts h (Silent h (factsOf r)) (factsOf r) target :=
      funext fun f => propext holds_contractFor
    dsimp only
    split_ifs
    · rw [pendingContract,holds_foldl (P := pendingFacts h scope (factsOf r)) fun _ _ => holds_addPending]
      simp [not_holds_empty]
    · cases target.declaration with
      | none => exact holds_contractFor
      | some owner =>
        dsimp only
        cases call.typeArguments with
        | none =>
          dsimp only
          rw [holds_withoutOpenParameters,hmarked]
        | some arguments =>
          dsimp only
          rw [holds_foldl (P := substitutedFacts h scope (factsOf r)) fun _ _ => holds_addSubstituted,(addUnresolvedOf_adds _ _).holds,hmarked]
          simp only [not_holds_empty,false_or,mem_substituteThrown]
          refine or_congr_right ⟨?_,?_⟩
          · rintro ⟨u,⟨t,ht,hu⟩,hf⟩
            exact ⟨t,holds_contractFor.mp ht,u,hu,hf⟩
          · rintro ⟨t,ht,u,hu,hf⟩
            exact ⟨u,⟨t,holds_contractFor.mpr ht,hu⟩,hf⟩

/-! ### Bodies -/

abbrev raisedFacts (r : Registry h) (scope : Option D) : List (Source D T) → Fact T → Prop :=
  sourcesFacts h (Silent h (factsOf r)) scope (factsOf r)

omit [DecidableEq T] in
theorem sourcesFacts_append {K : Signature D T → Prop} {S : Facts D T} {xs ys : List (Source D T)} :
    sourcesFacts h K scope S (xs ++ ys) f ↔ sourcesFacts h K scope S xs f ∨ sourcesFacts h K scope S ys f := by
  simp only [sourcesFacts,List.mem_append,or_and_right,exists_or]

omit [DecidableEq T] in
theorem sourcesFacts_cons {K : Signature D T → Prop} {S : Facts D T} {x : Source D T} {xs : List (Source D T)} :
    sourcesFacts h K scope S (x :: xs) f ↔ sourceFacts h K scope S x f ∨ sourcesFacts h K scope S xs f := by
  simp only [sourcesFacts,List.mem_cons,or_and_right,exists_or,exists_eq_left]

omit [DecidableEq T] in
theorem not_sourcesFacts_nil {K : Signature D T → Prop} {S : Facts D T} : ¬sourcesFacts h K scope S [] f := by
  rintro ⟨x,hx,-⟩
  cases hx

mutual

theorem holds_collectThrows : ∀ {node : Node D T} {into : ThrowSet h}, (collectThrows scope r node into).Holds f ↔
    into.Holds f ∨ raisedFacts r scope (sources node) f
  | .thrown value children, into => by
    rw [collectThrows,sources,holds_collectChildThrows,raisedFacts,sourcesFacts_append,← or_assoc]
    refine or_congr_left ?_
    cases value with
    | none => exact (or_iff_left not_sourcesFacts_nil).symm
    | some t =>
      have hone : raisedFacts r scope [.thrown t] f ↔ raisedAs h scope t f := sourcesFacts_cons.trans (or_iff_left not_sourcesFacts_nil)
      exact holds_addRaised.trans (or_congr_right hone.symm)
  | .tried operand, into => by
    rw [collectThrows,sources]
    split_ifs
    · exact holds_collectTriedChain
    · exact holds_collectThrows
  | .call call _ _ children, into => by
    rw [collectThrows,sources,holds_collectChildThrows,raisedFacts,sourcesFacts_cons,← or_assoc]
    exact or_congr_left (((addAll_adds _ _).holds f).trans (or_congr_right holds_callContract))
  | .lambda, into => by
    rw [collectThrows,sources]
    exact (or_iff_left not_sourcesFacts_nil).symm
  | .other children, into => by
    rw [collectThrows,sources]
    exact holds_collectChildThrows

theorem holds_collectTriedChain : ∀ {node : Node D T} {into : ThrowSet h}, (collectTriedChain scope r node into).Holds f ↔
    into.Holds f ∨ raisedFacts r scope (chainSources node) f
  | .call call receiver arguments children, into => by
    have hcall : (into.addAll (callContract scope r call)).1.Holds f ↔
        into.Holds f ∨ sourceFacts h (Silent h (factsOf r)) scope (factsOf r) (.call call) f :=
      ((addAll_adds _ _).holds f).trans (or_congr_right holds_callContract)
    rw [collectTriedChain,chainSources,raisedFacts,sourcesFacts_cons,← or_assoc]
    split_ifs
    · rw [holds_collectThrows,holds_collectTriedChain,hcall,sourcesFacts_append,or_assoc]
    · rw [holds_collectChildThrows,hcall]
  | .thrown _ _, into | .tried _, into | .lambda, into | .other _, into => by
    rw [collectTriedChain,chainSources]
    · exact (or_iff_left not_sourcesFacts_nil).symm
    all_goals exact nofun

theorem holds_collectChildThrows : ∀ {nodes : List (Node D T)} {into : ThrowSet h}, (collectChildThrows scope r nodes into).Holds f ↔
    into.Holds f ∨ raisedFacts r scope (childSources nodes) f
  | [], into => by
    rw [collectChildThrows,childSources]
    exact (or_iff_left not_sourcesFacts_nil).symm
  | node :: rest, into => by
    rw [collectChildThrows,childSources,holds_collectChildThrows,holds_collectThrows,raisedFacts,sourcesFacts_append,or_assoc]

end

/-! ### Callables -/

omit [DecidableEq D] in
theorem addRethrown_fold (scope : Option D) (before : List (Option T)) (c : T) (members : List T) (outward : ThrowSet h) (broader : Bool) :
    let outcome := members.foldl (fun (outward,broader) thrown =>
      if caughtBefore h scope thrown before then (outward,broader)
      else if h.alwaysSubclass none thrown c then ((outward.add thrown).1,broader)
      else (outward,broader || h.mightOverlap scope c thrown)) (outward,broader)
    (∀ f, outcome.1.Holds f ↔ outward.Holds f ∨ ∃ t ∈ members, caughtBefore h scope t before = false ∧
      h.alwaysSubclass none t c = true ∧ heldAs h t f) ∧
    (outcome.2 = true ↔ broader = true ∨ ∃ t ∈ members, caughtBefore h scope t before = false ∧ h.alwaysSubclass none t c = false ∧
      h.mightOverlap scope c t = true) := by
  induction members generalizing outward broader with
  | nil => simp
  | cons t members ih =>
    rw [List.foldl_cons]
    cases hb : caughtBefore h scope t before with
    | true =>
      have hrest := ih outward broader
      simp only [List.mem_cons,exists_eq_or_imp,hb,Bool.true_eq_false,false_and,false_or] at hrest ⊢
      exact hrest
    | false =>
      cases ha : h.alwaysSubclass none t c with
      | true =>
        have hrest := ih (outward.add t).1 broader
        simp only [List.mem_cons,exists_eq_or_imp,hb,ha,Bool.true_eq_false,false_and,and_false,false_or,true_and,(add_adds _ _).holds,
          or_assoc,Bool.false_eq_true,if_false,if_true] at hrest ⊢
        exact hrest
      | false =>
        have hrest := ih outward (broader || h.mightOverlap scope c t)
        simp only [List.mem_cons,exists_eq_or_imp,hb,ha,Bool.false_eq_true,false_and,and_false,false_or,true_and,Bool.or_eq_true,
          or_assoc,if_false] at hrest ⊢
        exact hrest

omit [DecidableEq D] in
theorem holds_addRethrown {bodySet outward : ThrowSet h} {before : List (Option T)} {c : T} :
    (addRethrown scope bodySet before c outward).Holds f ↔ outward.Holds f ∨ rethrownFacts h scope bodySet.Holds before c f := by
  obtain ⟨hholds,hbroader⟩ := addRethrown_fold scope before c bodySet.memberTypes outward bodySet.holdsUnresolved
  rw [addRethrown,rethrownFacts]
  dsimp only at hholds hbroader ⊢
  split_ifs with hb
  · rw [(add_adds _ _).holds,hholds,or_assoc]
    have hcond := hbroader.mp hb
    exact or_congr_right (or_congr_right ⟨fun hf => ⟨hcond,hf⟩,fun hf => hf.2⟩)
  · rw [hholds]
    exact or_congr_right (or_iff_left fun hf => hb (hbroader.mpr hf.1)).symm

theorem holds_addClause {bodySet outward : ThrowSet h} {clauses : List (CatchClause D T)} {i : ℕ} {clause : CatchClause D T} :
    (addClause scope r bodySet clauses outward i clause).Holds f ↔
      outward.Holds f ∨ clauseFacts h (Silent h (factsOf r)) scope (factsOf r) bodySet.Holds clauses i clause f := by
  rw [addClause,holds_collectThrows,clauseFacts,← or_assoc]
  refine or_congr_left ?_
  cases hc : caughtTypeOf h scope clause with
  | none => simp
  | some c =>
    cases hr : clause.hasRethrow with
    | false => simp
    | true => simp [holds_addRethrown]

theorem holds_computeOutward {d : D} {body : Option (Node D T)} {clauses : List (CatchClause D T)} :
    (computeOutward (some d) r body clauses).Holds f ↔
      outwardFacts h (Silent h (factsOf r)) (factsOf r) (.function d body clauses) f := by
  have hbody : ∀ bodySet : ThrowSet h, bodySet = body.elim .empty (fun body => collectThrows (some d) r body .empty) →
      bodySet.Holds = raisedFacts r (some d) (body.elim [] sources) := by
    rintro _ rfl
    funext f
    cases body with
    | none => exact propext (iff_of_false not_holds_empty not_sourcesFacts_nil)
    | some node => exact propext (holds_collectThrows.trans (or_iff_right not_holds_empty))
  rw [computeOutward,outwardFacts]
  dsimp only
  generalize hset : body.elim .empty (fun body => collectThrows (some d) r body .empty) = bodySet
  have hraised : bodySet.Holds = sourcesFacts h (Silent h (factsOf r)) (some d) (factsOf r) (body.elim [] sources) :=
    hbody bodySet hset.symm
  have hone : ∀ (s : ThrowSet h) (t : T), (if caughtBefore h (some d) t (clauses.map (caughtTypeOf h (some d))) then s else (s.add t).1).Holds f ↔
      s.Holds f ∨ caughtBefore h (some d) t (clauses.map (caughtTypeOf h (some d))) = false ∧ heldAs h t f := by
    intro s t
    split_ifs with hc
    · simp [hc]
    · rw [(add_adds _ _).holds]
      simp [hc]
  have hescaped := holds_foldl (P := fun t f => caughtBefore h (some d) t (clauses.map (caughtTypeOf h (some d))) = false ∧ heldAs h t f)
    hone bodySet.memberTypes .empty
  rw [holds_foldl (g := fun s (p : CatchClause D T × ℕ) => addClause (some d) r bodySet clauses s p.2 p.1)
    (P := fun p => clauseFacts h (Silent h (factsOf r)) (some d) (factsOf r) bodySet.Holds clauses p.2 p.1)
    fun _ _ => holds_addClause,← hraised]
  refine or_congr_left ?_
  rw [escapedFacts]
  split_ifs with he hu
  · rw [(addUnresolvedOf_adds _ _).holds,hescaped]
    simp only [not_holds_empty,false_or]
    rfl
  · rw [(addUnresolved_adds _).holds,hescaped]
    simp only [not_holds_empty,false_or]
    rw [Bool.and_eq_true,Bool.not_eq_true'] at hu
    exact or_congr_right ⟨fun hf => ⟨hf,hu⟩,fun hf => hf.1⟩
  · rw [hescaped]
    simp only [not_holds_empty,false_or]
    rw [Bool.and_eq_true,Bool.not_eq_true'] at hu
    exact (or_iff_left fun hf => hu hf.2).symm

theorem holds_outwardOf {item : Item D T} :
    (outwardOf r item).Holds f ↔ outwardFacts h (Silent h (factsOf r)) (factsOf r) item f := by
  cases item with
  | function d body clauses => exact holds_computeOutward
  | test d body => exact holds_collectThrows.trans (or_iff_right not_holds_empty)
  | lambda d children => exact holds_collectChildThrows.trans (or_iff_right not_holds_empty)

end Ens.Throws
