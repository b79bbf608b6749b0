import Ens.Throws.Infer

/-! # The rules of inference

What a callable lets escape as a set of facts, given the facts of the callables it calls and the functions whose markers count. The
code computes it with the markers of the functions whose sets are empty at the time.
-/
set_option linter.all false
namespace Ens.Throws
variable {D T : Type} [DecidableEq D] [DecidableEq T] {h : Types D T}

abbrev Facts (D T : Type) := D → Fact T → Prop

section
variable (h) (K : Signature D T → Prop) (scope : Option D) (S : Facts D T)

/-! ### Contracts -/

def contractFacts (signature : Signature D T) (f : Fact T) : Prop :=
  if signature.declaresThrows && !signature.throwsTypes.isEmpty then ∃ t ∈ signature.throwsTypes, ThrowSet.thrownAs h t f
  else if signature.throwsNothingHere then False
  else match signature.declaration with
    | none => False
    | some declaration => S declaration f

def markedFacts (signature : Signature D T) (f : Fact T) : Prop :=
  contractFacts h S signature f ∨ signature.declaresThrows = true ∧
    (f = .certain ∧ contractFacts h S signature .unresolved ∨ f = .unresolved ∧ K signature)

def raisedAs (t : T) (f : Fact T) : Prop :=
  match h.errorBase with
  | none => ThrowSet.thrownAs h t f
  | some base => if (h.param t).isSome && !h.alwaysSubclass scope t base then f = .unresolved else ThrowSet.thrownAs h t f

def lambdaFacts (lambda : D) (f : Fact T) : Prop :=
  ThrowSet.UnresolvedOf (S lambda) f ∨ ∃ t, S lambda (.member t) ∧ raisedAs h scope t f

def pendingFacts (entry : T) (f : Fact T) : Prop :=
  match h.pending entry with
  | none => raisedAs h scope entry f
  | some lambda => match h.pendingUse lambda with
    | some members => ∃ t ∈ members, raisedAs h scope t f
    | none => lambdaFacts h scope S lambda f

def substitutedFacts (raised : T) (f : Fact T) : Prop :=
  match h.pending raised with
  | some lambda => lambdaFacts h scope S lambda f
  | none => raisedAs h scope raised f

def callFacts (call : Call D T) (f : Fact T) : Prop :=
  match call.target with
  | none => ∃ t ∈ calleeFunctionThrownTypes h call, ThrowSet.thrownAs h t f
  | some target =>
    if declaresPending h target then ∃ entry ∈ target.throwsTypes, pendingFacts h scope S entry f
    else match target.declaration with
      | none => markedFacts h K S target f
      | some owner => match call.typeArguments with
        | none => ThrowSet.UnresolvedOf (markedFacts h K S target) f ∨ ∃ t, markedFacts h K S target (.member t) ∧
            ThrowSet.heldAs h (if (h.param t).map Prod.fst = some owner then h.errorType else t) f
        | some arguments => ThrowSet.UnresolvedOf (markedFacts h K S target) f ∨ ∃ t, markedFacts h K S target (.member t) ∧
            ∃ u ∈ replacements h owner arguments t, substitutedFacts h scope S u f

/-! ### Bodies -/

inductive Source (D T : Type)
  | thrown (t : T)
  | call (call : Call D T)

mutual

def sources : Node D T → List (Source D T)
  | .thrown value children => (value.elim [] fun t => [.thrown t]) ++ childSources children
  | .tried operand => if operand.isCall then chainSources operand else sources operand
  | .call call _ _ children => .call call :: childSources children
  | .lambda => []
  | .other children => childSources children

def chainSources : Node D T → List (Source D T)
  | .call call receiver arguments children =>
    .call call :: if receiver.isCall then chainSources receiver ++ sources arguments else childSources children
  | .thrown _ _ | .tried _ | .lambda | .other _ => []

def childSources : List (Node D T) → List (Source D T)
  | [] => []
  | node :: rest => sources node ++ childSources rest

end

def sourceFacts : Source D T → Fact T → Prop
  | .thrown t => raisedAs h scope t
  | .call call => callFacts h K scope S call

def sourcesFacts (xs : List (Source D T)) (f : Fact T) : Prop := ∃ x ∈ xs, sourceFacts h K scope S x f

/-! ### Callables -/

def rethrownFacts (body : Fact T → Prop) (before : List (Option T)) (clauseType : T) (f : Fact T) : Prop :=
  (∃ t, body (.member t) ∧ caughtBefore h scope t before = false ∧ h.alwaysSubclass none t clauseType = true ∧ ThrowSet.heldAs h t f) ∨
    (body .unresolved ∨ ∃ t, body (.member t) ∧ caughtBefore h scope t before = false ∧ h.alwaysSubclass none t clauseType = false ∧
      h.mightOverlap scope clauseType t = true) ∧ ThrowSet.heldAs h clauseType f

def clauseFacts (body : Fact T → Prop) (clauses : List (CatchClause D T)) (i : ℕ) (clause : CatchClause D T) (f : Fact T) : Prop :=
  (∃ c, caughtTypeOf h scope clause = some c ∧ clause.hasRethrow = true ∧
    rethrownFacts h scope body ((clauses.take i).map (caughtTypeOf h scope)) c f) ∨ sourcesFacts h K scope S (sources clause.body) f

/-- What a body raises that its clauses let through. -/
def escapedFacts (body : Fact T → Prop) (clauses : List (CatchClause D T)) (f : Fact T) : Prop :=
  (∃ t, body (.member t) ∧ caughtBefore h scope t (clauses.map (caughtTypeOf h scope)) = false ∧ ThrowSet.heldAs h t f) ∨
    if clauses.isEmpty then ThrowSet.UnresolvedOf body f
    else f = .unresolved ∧ body .unresolved ∧ catchesEveryError h scope (clauses.map (caughtTypeOf h scope)) = false

def outwardFacts : Item D T → Fact T → Prop
  | .function declaration body clauses, f =>
    let raised := sourcesFacts h K (some declaration) S (body.elim [] sources)
    escapedFacts h (some declaration) raised clauses f ∨
      ∃ p ∈ clauses.zipIdx, clauseFacts h K (some declaration) S raised clauses p.2 p.1 f
  | .test _ body, f => sourcesFacts h K none S (sources body) f
  | .lambda _ children, f => sourcesFacts h K none S (childSources children) f

end

/-! ### More facts give more -/

section
variable {K K' : Signature D T → Prop} {S S' : Facts D T} {scope : Option D} {f : Fact T}

omit [DecidableEq D] [DecidableEq T] in
theorem contractFacts_mono (hS : ∀ d f, S d f → S' d f) {signature : Signature D T} (hf : contractFacts h S signature f) :
    contractFacts h S' signature f := by
  rw [contractFacts] at hf ⊢
  split_ifs at hf ⊢
  · exact hf
  · cases hd : signature.declaration with
    | none =>
      rw [hd] at hf
      exact hf
    | some d =>
      rw [hd] at hf
      exact hS d f hf

omit [DecidableEq D] [DecidableEq T] in
theorem markedFacts_mono (hK : ∀ signature, K signature → K' signature) (hS : ∀ d f, S d f → S' d f) {signature : Signature D T}
    (hf : markedFacts h K S signature f) : markedFacts h K' S' signature f :=
  hf.imp (contractFacts_mono hS) fun hm => ⟨hm.1,hm.2.imp (fun hc => ⟨hc.1,contractFacts_mono hS hc.2⟩) fun hk => ⟨hk.1,hK _ hk.2⟩⟩

omit [DecidableEq T] in
theorem unresolvedOf_mono {other other' : Fact T → Prop} (ho : ∀ f, other f → other' f) (hf : ThrowSet.UnresolvedOf other f) :
    ThrowSet.UnresolvedOf other' f := by
  cases f with
  | member t => exact hf
  | unresolved => exact ho _ hf
  | certain => exact ho _ hf

omit [DecidableEq D] [DecidableEq T] in
theorem lambdaFacts_mono (hS : ∀ d f, S d f → S' d f) {lambda : D} (hf : lambdaFacts h scope S lambda f) :
    lambdaFacts h scope S' lambda f :=
  hf.imp (unresolvedOf_mono (hS lambda)) fun ⟨t,ht,hr⟩ => ⟨t,hS lambda _ ht,hr⟩

omit [DecidableEq D] [DecidableEq T] in
theorem pendingFacts_mono (hS : ∀ d f, S d f → S' d f) {entry : T} (hf : pendingFacts h scope S entry f) :
    pendingFacts h scope S' entry f := by
  rw [pendingFacts] at hf ⊢
  cases hp : h.pending entry with
  | none =>
    rw [hp] at hf
    exact hf
  | some lambda =>
    rw [hp] at hf
    dsimp only at hf ⊢
    cases hu : h.pendingUse lambda with
    | some members =>
      rw [hu] at hf
      exact hf
    | none =>
      rw [hu] at hf
      exact lambdaFacts_mono hS hf

omit [DecidableEq D] [DecidableEq T] in
theorem substitutedFacts_mono (hS : ∀ d f, S d f → S' d f) {raised : T} (hf : substitutedFacts h scope S raised f) :
    substitutedFacts h scope S' raised f := by
  rw [substitutedFacts] at hf ⊢
  cases hp : h.pending raised with
  | none =>
    rw [hp] at hf
    exact hf
  | some lambda =>
    rw [hp] at hf
    exact lambdaFacts_mono hS hf

omit [DecidableEq T] in
theorem callFacts_mono (hK : ∀ signature, K signature → K' signature) (hS : ∀ d f, S d f → S' d f) {call : Call D T}
    (hf : callFacts h K scope S call f) : callFacts h K' scope S' call f := by
  rw [callFacts] at hf ⊢
  cases ht : call.target with
  | none =>
    rw [ht] at hf
    exact hf
  | some target =>
    rw [ht] at hf
    dsimp only at hf ⊢
    have hmarked : ∀ f, markedFacts h K S target f → markedFacts h K' S' target f := fun f => markedFacts_mono hK hS
    split_ifs at hf ⊢ with hp
    · obtain ⟨entry,he,hf⟩ := hf
      exact ⟨entry,he,pendingFacts_mono hS hf⟩
    · cases hd : target.declaration with
      | none =>
        rw [hd] at hf
        exact hmarked f hf
      | some owner =>
        rw [hd] at hf
        dsimp only at hf ⊢
        cases ha : call.typeArguments with
        | none =>
          rw [ha] at hf
          exact hf.imp (unresolvedOf_mono hmarked) fun ⟨t,ht,hr⟩ => ⟨t,hmarked _ ht,hr⟩
        | some arguments =>
          rw [ha] at hf
          exact hf.imp (unresolvedOf_mono hmarked) fun ⟨t,ht,u,hu,hr⟩ => ⟨t,hmarked _ ht,u,hu,substitutedFacts_mono hS hr⟩

omit [DecidableEq T] in
theorem sourcesFacts_mono (hK : ∀ signature, K signature → K' signature) (hS : ∀ d f, S d f → S' d f) {xs : List (Source D T)}
    (hf : sourcesFacts h K scope S xs f) : sourcesFacts h K' scope S' xs f := by
  obtain ⟨x,hx,hf⟩ := hf
  cases x with
  | thrown t => exact ⟨_,hx,hf⟩
  | call c => exact ⟨_,hx,callFacts_mono hK hS hf⟩

omit [DecidableEq D] [DecidableEq T] in
theorem rethrownFacts_mono {body body' : Fact T → Prop} (hb : ∀ f, body f → body' f) {before : List (Option T)} {c : T}
    (hf : rethrownFacts h scope body before c f) : rethrownFacts h scope body' before c f :=
  hf.imp (fun ⟨t,ht,hr⟩ => ⟨t,hb _ ht,hr⟩) fun ⟨hw,hc⟩ => ⟨hw.imp (hb _) fun ⟨t,ht,hr⟩ => ⟨t,hb _ ht,hr⟩,hc⟩

omit [DecidableEq D] [DecidableEq T] in
theorem escapedFacts_mono {body body' : Fact T → Prop} (hb : ∀ f, body f → body' f) {clauses : List (CatchClause D T)}
    (hf : escapedFacts h scope body clauses f) : escapedFacts h scope body' clauses f := by
  refine hf.imp (fun ⟨t,ht,hr⟩ => ⟨t,hb _ ht,hr⟩) fun hf => ?_
  split_ifs at hf ⊢
  · exact unresolvedOf_mono hb hf
  · exact ⟨hf.1,hb _ hf.2.1,hf.2.2⟩

omit [DecidableEq T] in
theorem outwardFacts_mono (hK : ∀ signature, K signature → K' signature) (hS : ∀ d f, S d f → S' d f) {item : Item D T}
    (hf : outwardFacts h K S item f) : outwardFacts h K' S' item f := by
  cases item with
  | function d body clauses =>
    have hbody : ∀ f, sourcesFacts h K (some d) S (body.elim [] sources) f → sourcesFacts h K' (some d) S' (body.elim [] sources) f :=
      fun f => sourcesFacts_mono hK hS
    refine Or.imp (escapedFacts_mono hbody) (fun ⟨p,hp,hc⟩ => ⟨p,hp,?_⟩) hf
    exact hc.imp (fun ⟨c,hc,hr,hf⟩ => ⟨c,hc,hr,rethrownFacts_mono hbody hf⟩) (sourcesFacts_mono hK hS)
  | test d body => exact sourcesFacts_mono hK hS hf
  | lambda d children => exact sourcesFacts_mono hK hS hf

/-! ### Markers apart from facts -/

abbrev noFacts : Facts D T := fun _ _ => False

abbrev noMarker : Signature D T → Prop := fun _ => False

omit [DecidableEq D] [DecidableEq T] in
theorem markedFacts_apart {signature : Signature D T} (hf : markedFacts h K S signature f) :
    markedFacts h noMarker S signature f ∨ f = .unresolved ∧ markedFacts h K noFacts signature .unresolved := by
  obtain hc | ⟨hm,⟨he,hc⟩ | ⟨he,hk⟩⟩ := hf
  · exact .inl (.inl hc)
  · exact .inl (.inr ⟨hm,.inl ⟨he,hc⟩⟩)
  · exact .inr ⟨he,.inr ⟨hm,.inr ⟨rfl,hk⟩⟩⟩

omit [DecidableEq D] [DecidableEq T] in
theorem unresolvedOf_markedFacts_apart {signature : Signature D T} (hf : ThrowSet.UnresolvedOf (markedFacts h K S signature) f) :
    ThrowSet.UnresolvedOf (markedFacts h noMarker S signature) f ∨ ThrowSet.UnresolvedOf (markedFacts h K noFacts signature) f := by
  cases f with
  | member t => exact .inl hf
  | unresolved => exact (markedFacts_apart hf).imp_right And.right
  | certain => exact .inl ((markedFacts_apart hf).resolve_right fun he => nomatch he.1)

omit [DecidableEq D] [DecidableEq T] in
theorem member_markedFacts_apart {signature : Signature D T} {t : T} (hf : markedFacts h K S signature (.member t)) :
    markedFacts h noMarker S signature (.member t) := (markedFacts_apart hf).resolve_right fun he => nomatch he.1

omit [DecidableEq T] in
theorem callFacts_apart {call : Call D T} (hf : callFacts h K scope S call f) :
    callFacts h noMarker scope S call f ∨ callFacts h K scope noFacts call f := by
  rw [callFacts] at hf
  rw [callFacts,callFacts]
  cases ht : call.target with
  | none =>
    rw [ht] at hf
    exact .inl hf
  | some target =>
    rw [ht] at hf
    dsimp only at hf ⊢
    split_ifs at hf ⊢
    · exact .inl hf
    · cases hd : target.declaration with
      | none =>
        rw [hd] at hf
        refine (markedFacts_apart hf).imp_right ?_
        rintro ⟨rfl,hm⟩
        exact hm
      | some owner =>
        rw [hd] at hf
        dsimp only at hf ⊢
        cases ha : call.typeArguments with
        | none =>
          rw [ha] at hf
          rcases hf with hu | ⟨t,ht,hr⟩
          · exact (unresolvedOf_markedFacts_apart hu).imp .inl .inl
          · exact .inl (.inr ⟨t,member_markedFacts_apart ht,hr⟩)
        | some arguments =>
          rw [ha] at hf
          rcases hf with hu | ⟨t,ht,u,hu,hr⟩
          · exact (unresolvedOf_markedFacts_apart hu).imp .inl .inl
          · exact .inl (.inr ⟨t,member_markedFacts_apart ht,u,hu,hr⟩)

omit [DecidableEq T] in
theorem sourcesFacts_apart {xs : List (Source D T)} (hf : sourcesFacts h K scope S xs f) :
    sourcesFacts h noMarker scope S xs f ∨ sourcesFacts h K scope noFacts xs f := by
  obtain ⟨x,hx,hf⟩ := hf
  cases x with
  | thrown t => exact .inl ⟨_,hx,hf⟩
  | call c => exact (callFacts_apart hf).imp (fun hc => ⟨_,hx,hc⟩) fun hc => ⟨_,hx,hc⟩

omit [DecidableEq D] [DecidableEq T] in
theorem rethrownFacts_apart {body a b : Fact T → Prop} (hb : ∀ f, body f → a f ∨ b f) {before : List (Option T)} {c : T}
    (hf : rethrownFacts h scope body before c f) : rethrownFacts h scope a before c f ∨ rethrownFacts h scope b before c f := by
  rcases hf with ⟨t,ht,hr⟩ | ⟨hu | ⟨t,ht,hr⟩,hc⟩
  · exact (hb _ ht).imp (fun ht => .inl ⟨t,ht,hr⟩) fun ht => .inl ⟨t,ht,hr⟩
  · exact (hb _ hu).imp (fun hu => .inr ⟨.inl hu,hc⟩) fun hu => .inr ⟨.inl hu,hc⟩
  · exact (hb _ ht).imp (fun ht => .inr ⟨.inr ⟨t,ht,hr⟩,hc⟩) fun ht => .inr ⟨.inr ⟨t,ht,hr⟩,hc⟩

omit [DecidableEq D] [DecidableEq T] in
theorem escapedFacts_apart {body a b : Fact T → Prop} (hb : ∀ f, body f → a f ∨ b f) {clauses : List (CatchClause D T)}
    (hf : escapedFacts h scope body clauses f) : escapedFacts h scope a clauses f ∨ escapedFacts h scope b clauses f := by
  rcases hf with ⟨t,ht,hr⟩ | hf
  · exact (hb _ ht).imp (fun ht => .inl ⟨t,ht,hr⟩) fun ht => .inl ⟨t,ht,hr⟩
  · rw [escapedFacts,escapedFacts]
    split_ifs at hf ⊢
    · cases f with
      | member t => exact hf.elim
      | unresolved => exact (hb _ hf).imp .inr .inr
      | certain => exact (hb _ hf).imp .inr .inr
    · exact (hb _ hf.2.1).imp (fun hu => .inr ⟨hf.1,hu,hf.2.2⟩) fun hu => .inr ⟨hf.1,hu,hf.2.2⟩

omit [DecidableEq T] in
/-- What a callable lets escape comes from the facts of others or from a marker. -/
theorem outwardFacts_apart {item : Item D T} (hf : outwardFacts h K S item f) :
    outwardFacts h noMarker S item f ∨ outwardFacts h K noFacts item f := by
  cases item with
  | function d body clauses =>
    have hbody : ∀ f, sourcesFacts h K (some d) S (body.elim [] sources) f →
        sourcesFacts h noMarker (some d) S (body.elim [] sources) f ∨ sourcesFacts h K (some d) noFacts (body.elim [] sources) f :=
      fun f => sourcesFacts_apart
    rcases hf with he | ⟨p,hp,⟨c,hc,hr,hf⟩ | hf⟩
    · exact (escapedFacts_apart hbody he).imp .inl .inl
    · exact (rethrownFacts_apart hbody hf).imp (fun hf => .inr ⟨p,hp,.inl ⟨c,hc,hr,hf⟩⟩) fun hf => .inr ⟨p,hp,.inl ⟨c,hc,hr,hf⟩⟩
    · exact (sourcesFacts_apart hf).imp (fun hf => .inr ⟨p,hp,.inr hf⟩) fun hf => .inr ⟨p,hp,.inr hf⟩
  | test d body => exact sourcesFacts_apart hf
  | lambda d children => exact sourcesFacts_apart hf

end

end Ens.Throws
