import Ens.Eir.Definite
import Ens.Logic.Loop
import Ens.Logic.Machine
import Mathlib.Data.List.Nodup
import Mathlib.Data.List.Perm.Subperm
import Mathlib.Logic.Relation

/-! # Cleanup pruning

Lowering makes a block for every edge of a scope. The last pass sends every edge past the blocks that only jump, and drops the blocks nothing
reaches. What an instruction does is not said here: whatever it does, a pruned function shows the same states and ends the same way.
-/
set_option linter.all false
namespace Ens.Eir.Pruning
open Loop Machine

/-! ### The pass -/

def entryAt {α : Type} (list : List α) (index : ℤ) : Option α := if 0 ≤ index then list[index.toNat]? else none

def resolveForwarding (blocks : List Block) : ℕ → List ℕ → ℤ → Option ℤ
  | 0, _, _ => none
  | left + 1, visited, current =>
    if current.toNat ∈ visited then some current
    else match entryAt blocks current with
      | none => some current
      | some block =>
        if block.instructions ≠ [] then some current
        else match block.terminator with
          | some (.jump target) => resolveForwarding blocks left (current.toNat :: visited) target
          | _ => some current

def retarget (lookup : ℤ → Option ℤ) : Terminator → Option Terminator
  | .jump target => do return .jump (← lookup target)
  | .branch condition thenTarget elseTarget => do return .branch condition (← lookup thenTarget) (← lookup elseTarget)
  | .switch value caseValues caseTargets defaultTarget => do
    return .switch value caseValues (← caseTargets.mapM lookup) (← lookup defaultTarget)
  | .tryCall result receiver arguments errorResult normalTarget unwindTarget => do
    return .tryCall result receiver arguments errorResult (← lookup normalTarget) (← lookup unwindTarget)
  | .tryClosureCall result closure arguments errorResult normalTarget unwindTarget => do
    return .tryClosureCall result closure arguments errorResult (← lookup normalTarget) (← lookup unwindTarget)
  | terminator => some terminator

/-- A terminator whose targets agree. A call that may throw keeps the edges it had, since its result is on one of them only. -/
def merged (before : Terminator) : Terminator → Terminator
  | .branch condition thenTarget elseTarget => if thenTarget = elseTarget then .jump thenTarget else .branch condition thenTarget elseTarget
  | .switch value caseValues caseTargets defaultTarget =>
    if caseTargets.all fun target => target = defaultTarget then .jump defaultTarget else .switch value caseValues caseTargets defaultTarget
  | .tryCall result receiver arguments errorResult normalTarget unwindTarget =>
    if normalTarget = unwindTarget then before else .tryCall result receiver arguments errorResult normalTarget unwindTarget
  | .tryClosureCall result closure arguments errorResult normalTarget unwindTarget =>
    if normalTarget = unwindTarget then before else .tryClosureCall result closure arguments errorResult normalTarget unwindTarget
  | terminator => terminator

def threadTargets (terminator : Terminator) (forwarded : List ℤ) : Option Terminator :=
  (retarget (entryAt forwarded) terminator).map (merged terminator)

def remapTargets (terminator : Terminator) (remap : List ℤ) : Option Terminator := retarget (entryAt remap) terminator

/-- The blocks marked as reached, and those whose edges are still to be followed, the last one first. -/
structure Reaching where
  reached : List ℕ
  pending : List ℕ

def follow (count : ℕ) (r : Reaching) (successor : ℤ) : Reaching :=
  if 0 ≤ successor ∧ successor < count ∧ successor.toNat ∉ r.reached then ⟨successor.toNat :: r.reached,successor.toNat :: r.pending⟩ else r

def reachable (terminators : List Terminator) (count : ℕ) : Except Unit (List ℕ) :=
  loop () (fun (r : Reaching) => match r.pending with
    | [] => .ok (.done r.reached)
    | current :: pending => match terminators[current]? with
      | none => .error ()
      | some terminator => .ok (.next ((successorsOfTerminator terminator).foldl (follow count) ⟨r.reached,pending⟩)))
    (count + 1) ⟨[0],[0]⟩

/-- The places of the blocks among those kept, and -1 for a block that is not. -/
def remapOf (reached : List ℕ) (count : ℕ) : List ℤ × ℤ :=
  (List.range count).foldl (fun (remap,kept) b => if b ∈ reached then (remap ++ [kept],kept + 1) else (remap ++ [-1],kept)) ([],0)

def rebuild (f : EirFunction) (threaded : List Terminator) (reached : List ℕ) (remap : List ℤ) : Option (List Block) :=
  ((List.range f.blocks.length).filter fun b => b ∈ reached).mapM fun b => do
    let source ← f.blocks[b]?
    let terminator ← threaded[b]?
    let terminator ← remapTargets terminator remap
    return { label := source.label, instructions := source.instructions, terminator := some terminator }

def run (f : EirFunction) : Option EirFunction :=
  if f.blocks.length = 0 then some f
  else do
    let forwarded ← (List.range f.blocks.length).mapM fun (b : ℕ) => resolveForwarding f.blocks (f.blocks.length + 1) [] b
    let threaded ← f.blocks.mapM fun block => do threadTargets (← block.terminator) forwarded
    let reached ← (reachable threaded f.blocks.length).toOption
    let blocks ← rebuild f threaded reached (remapOf reached f.blocks.length).1
    return { f with blocks }

/-! ### What a function does -/

inductive Tried
  | call (result receiver : ℤ) (arguments : List ℤ) (errorResult : ℤ)
  | closureCall (result closure : ℤ) (arguments : List ℤ) (errorResult : ℤ)

/-- What instructions do to a state, which may keep all that was ever done. The label of the block and the number of instructions left in it
tell instructions apart that differ in what they leave out here, such as a constant. None ends the program, and a call that may throw tells
whether it returned. -/
structure Meaning (σ : Type) where
  runs : String → ℕ → Instruction → σ → Option σ
  truth : ℤ → σ → Bool
  value : ℤ → σ → ℤ
  tries : String → Tried → σ → Option (Bool × σ)

inductive Outcome (σ : Type)
  | returned (value : ℤ) (state : σ)
  | propagated (error : ℤ) (state : σ)
  | aborted (state : σ)
  | unreachable (state : σ)
  | broken (state : σ)

/-- Where a run stands. -/
structure Config (σ : Type) where
  block : ℕ
  label : String
  rest : List Instruction
  state : σ

section
variable {σ : Type} (M : Meaning σ)

def caseTarget (value : ℤ) : List ℤ → List ℤ → ℤ → ℤ
  | v :: values, t :: targets, defaultTarget => if value = v then t else caseTarget value values targets defaultTarget
  | _, _, defaultTarget => defaultTarget

def tried (label : String) (call : Tried) (normalTarget unwindTarget : ℤ) (s : σ) : (ℤ × σ) ⊕ Outcome σ :=
  match M.tries label call s with
  | none => .inr (.aborted s)
  | some (returned,s') => .inl (if returned then normalTarget else unwindTarget,s')

def leads (label : String) (s : σ) : Terminator → (ℤ × σ) ⊕ Outcome σ
  | .ret value => .inr (.returned value s)
  | .jump target => .inl (target,s)
  | .branch condition thenTarget elseTarget => .inl (if M.truth condition s then thenTarget else elseTarget,s)
  | .switch value caseValues caseTargets defaultTarget => .inl (caseTarget (M.value value s) caseValues caseTargets defaultTarget,s)
  | .unreachable => .inr (.unreachable s)
  | .tryCall result receiver arguments errorResult normalTarget unwindTarget =>
    tried M label (.call result receiver arguments errorResult) normalTarget unwindTarget s
  | .tryClosureCall result closure arguments errorResult normalTarget unwindTarget =>
    tried M label (.closureCall result closure arguments errorResult) normalTarget unwindTarget s
  | .propagate error => .inr (.propagated error s)

def enter (f : EirFunction) (target : ℤ) (s : σ) : Config σ :=
  ⟨target.toNat,((f.blocks[target.toNat]?).map Block.label).getD "",((f.blocks[target.toNat]?).map Block.instructions).getD [],s⟩

def step (f : EirFunction) (c : Config σ) : Config σ ⊕ Outcome σ :=
  match c.rest with
  | instruction :: rest => match M.runs c.label rest.length instruction c.state with
    | some s => .inl ⟨c.block,c.label,rest,s⟩
    | none => .inr (.aborted c.state)
  | [] => match (f.blocks[c.block]?).bind Block.terminator with
    | none => .inr (.broken c.state)
    | some terminator => match leads M c.label c.state terminator with
      | .inl (target,s) => .inl (enter f target s)
      | .inr o => .inr o

end

/-- Every block has a terminator, and no edge leads outside the function. -/
def Formed (f : EirFunction) : Prop := ∀ block ∈ f.blocks, block.terminator.isSome ∧
  ∀ target ∈ successorsOf block, 0 ≤ target ∧ target < f.blocks.length

instance (f : EirFunction) : Decidable (Formed f) := inferInstanceAs (Decidable (∀ block ∈ f.blocks, block.terminator.isSome ∧
  ∀ target ∈ successorsOf block, 0 ≤ target ∧ target < f.blocks.length))

variable {f g : EirFunction} {block : Block} {terminator terminator' : Terminator} {lookup : ℤ → Option ℤ} {R : ℤ → ℤ → Prop}
  {visited : List ℕ} {left : ℕ} {current target target' : ℤ}

/-! ### Forwarding -/

theorem Formed.terminated (h : Formed f) (hb : block ∈ f.blocks) : ∃ terminator, block.terminator = some terminator ∧
    ∀ target ∈ successorsOfTerminator terminator, 0 ≤ target ∧ target < f.blocks.length := by
  obtain ⟨hsome,hin⟩ := h block hb
  obtain ⟨terminator,ht⟩ := Option.isSome_iff_exists.mp hsome
  refine ⟨terminator,ht,fun target htarget => hin target ?_⟩
  rw [successorsOf,ht]
  exact htarget

theorem entryAt_some {α : Type} {list : List α} {index : ℤ} (h0 : 0 ≤ index) (hlt : index < list.length) :
    ∃ a, entryAt list index = some a ∧ list[index.toNat]? = some a := by
  have hn : index.toNat < list.length := by omega
  exact ⟨list[index.toNat],(if_pos h0).trans (List.getElem?_eq_getElem hn),List.getElem?_eq_getElem hn⟩

theorem length_le_of_nodup (hn : visited.Nodup) (hlt : ∀ b ∈ visited, b < left) : visited.length ≤ left := by
  have h := (hn.subperm fun b hb => List.mem_range.mpr (hlt b hb)).length_le
  rwa [List.length_range] at h

/-- An edge that may go to another block instead: a run gets there without a change, and a path with no more temps defined. -/
structure Forwards (f : EirFunction) (target target' : ℤ) : Prop where
  silent : ∀ {σ : Type} (M : Meaning σ) (s : σ), ∃ k, Silent (step M f) Config.state k (enter f target s) (enter f target' s)
  path : ∀ {block : Block} {D : Set ℤ}, f.blocks[target.toNat]? = some block → Path f target.toNat block.instructions D →
    ∃ block', f.blocks[target'.toNat]? = some block' ∧ Path f target'.toNat block'.instructions D

theorem Forwards.refl (target : ℤ) : Forwards f target target :=
  ⟨fun _ s => ⟨0,.refl (enter f target s)⟩,fun hb hp => ⟨_,hb,hp⟩⟩

theorem Forwards.jump (hget : f.blocks[current.toNat]? = some block) (hempty : block.instructions = [])
    (ht : block.terminator = some (.jump target)) (h0 : 0 ≤ target) (hlt : target < f.blocks.length) (h : Forwards f target target') :
    Forwards f current target' := by
  refine ⟨fun M s => ?_,fun hb hp => ?_⟩
  · obtain ⟨k,hk⟩ := h.silent M s
    refine ⟨k + 1,.head (d := enter f target s) ?_ rfl hk⟩
    rw [step,enter]
    dsimp only
    rw [hget,Option.map_some,Option.getD_some,hempty]
    dsimp only
    rw [Option.bind_some,ht]
    rfl
  · obtain rfl := Option.some.inj (hget.symm.trans hb)
    obtain ⟨next,-,hnext⟩ := entryAt_some h0 hlt
    rw [hempty] at hp
    have hedge := hp.edge hget ht (List.mem_singleton_self (target,[])) h0 hnext
    simp only [List.not_mem_nil,Set.ofPred_false,Set.union_empty] at hedge
    exact h.path hnext hedge

theorem resolveForwarding_ok (hf : Formed f) (hn : visited.Nodup) (hlt : ∀ b ∈ visited, b < f.blocks.length)
    (hroom : f.blocks.length < left + visited.length) (h0 : 0 ≤ current) (hc : current < f.blocks.length) :
    ∃ target, resolveForwarding f.blocks left visited current = some target ∧ 0 ≤ target ∧ target < f.blocks.length ∧
      Forwards f current target := by
  induction left generalizing visited current with
  | zero =>
    have hle := length_le_of_nodup hn hlt
    omega
  | succ left ih =>
    have hhere : ∃ target, some current = some target ∧ 0 ≤ target ∧ target < f.blocks.length ∧ Forwards f current target :=
      ⟨current,rfl,h0,hc,.refl current⟩
    rw [resolveForwarding]
    by_cases hmem : current.toNat ∈ visited
    · rw [if_pos hmem]
      exact hhere
    obtain ⟨block,hentry,hget⟩ := entryAt_some h0 hc
    rw [if_neg hmem,hentry]
    dsimp only
    by_cases hempty : block.instructions = []
    · rw [if_neg (not_not.mpr hempty)]
      obtain ⟨terminator,ht,hin⟩ := hf.terminated (List.mem_of_getElem? hget)
      rw [ht]
      cases terminator with
      | jump target =>
        obtain ⟨ht0,htlt⟩ := hin target (List.mem_singleton_self _)
        have hmore : f.blocks.length < left + (current.toNat :: visited).length := by
          rw [List.length_cons]
          omega
        obtain ⟨last,hlast,hl0,hllt,hrun⟩ := ih (List.nodup_cons.mpr ⟨hmem,hn⟩) (List.forall_mem_cons.mpr ⟨by omega,hlt⟩) hmore ht0 htlt
        exact ⟨last,hlast,hl0,hllt,.jump hget hempty ht ht0 htlt hrun⟩
      | _ => exact hhere
    · rw [if_pos hempty]
      exact hhere

/-! ### Terminators -/

structure Follows (R : ℤ → ℤ → Prop) (before after : Terminator) : Prop where
  ends : ∀ {σ : Type} (M : Meaning σ) (label : String) (s : σ) o, leads M label s before = .inr o → leads M label s after = .inr o
  goes : ∀ {σ : Type} (M : Meaning σ) (label : String) (s : σ) target s', leads M label s before = .inl (target,s') →
    ∃ target', R target target' ∧ leads M label s after = .inl (target',s')
  edges : ∀ edge' ∈ edgesOf after, ∃ edge ∈ edgesOf before, R edge.1 edge'.1 ∧ edge.2 = edge'.2
  uses : ∀ used ∈ terminatorUsesOf after, used ∈ terminatorUsesOf before
  distinct : Distinct before → Distinct after

theorem Follows.refl (hr : ∀ target, R target target) : Follows R terminator terminator :=
  ⟨fun _ _ _ _ h => h,fun _ _ _ target _ h => ⟨target,hr target,h⟩,fun edge h => ⟨edge,h,hr edge.1,rfl⟩,fun _ h => h,fun h => h⟩

theorem Follows.ended (hends : ∀ {σ : Type} (M : Meaning σ) (label : String) (s : σ) answer, leads M label s terminator ≠ .inl answer)
    (hnone : edgesOf terminator = []) : Follows R terminator terminator :=
  ⟨fun _ _ _ _ h => h,fun M label s target s' h => absurd h (hends M label s (target,s')),fun edge h => (by rw [hnone] at h; cases h),
    fun _ h => h,fun h => h⟩

theorem Follows.imp {R' : ℤ → ℤ → Prop} (h : Follows R terminator terminator') (himp : ∀ target target', R target target' → R' target target') :
    Follows R' terminator terminator' := by
  refine ⟨h.ends,fun M label s target s' ht => ?_,fun edge' hedge' => ?_,h.uses,h.distinct⟩
  · obtain ⟨target',hr,hleads⟩ := h.goes M label s target s' ht
    exact ⟨target',himp _ _ hr,hleads⟩
  · obtain ⟨edge,hedge,hr,hdefs⟩ := h.edges edge' hedge'
    exact ⟨edge,hedge,himp _ _ hr,hdefs⟩

theorem Follows.joins (h : Follows R terminator terminator') (hedge : (target,[]) ∈ edgesOf terminator')
    (hjump : ∀ {σ : Type} (M : Meaning σ) (label : String) (s : σ), leads M label s (.jump target) = leads M label s terminator') :
    Follows R terminator (.jump target) := by
  refine ⟨fun M label s o ho => ?_,fun M label s target s' ht => ?_,fun edge h' => ?_,fun _ h' => (by cases h'),fun _ => trivial⟩
  · rw [hjump]
    exact h.ends M label s o ho
  · rw [hjump]
    exact h.goes M label s target s' ht
  · obtain rfl := List.mem_singleton.mp h'
    exact h.edges _ hedge

theorem mapM_some {α β : Type} {get : α → Option β} {P : α → β → Prop} {list : List α} (h : ∀ a ∈ list, ∃ b, get a = some b ∧ P a b) :
    ∃ bs, list.mapM get = some bs ∧ List.Forall₂ P list bs := by
  induction list with
  | nil => exact ⟨[],rfl,.nil⟩
  | cons a list ih =>
    obtain ⟨b,hb,hp⟩ := h a List.mem_cons_self
    obtain ⟨bs,hbs,hall⟩ := ih fun x hx => h x (List.mem_cons_of_mem a hx)
    refine ⟨b :: bs,?_,.cons hp hall⟩
    rw [List.mapM_cons,hb,hbs]
    rfl

theorem forall₂_source {α β : Type} {P : α → β → Prop} {list : List α} {bs : List β} (h : List.Forall₂ P list bs) :
    ∀ b ∈ bs, ∃ a ∈ list, P a b := by
  induction h with
  | nil => exact fun b hb => absurd hb List.not_mem_nil
  | @cons a b list bs hp _ ih =>
    intro b' hb'
    rcases List.mem_cons.mp hb' with rfl | hb'
    · exact ⟨a,List.mem_cons_self,hp⟩
    · obtain ⟨a',ha',hp'⟩ := ih b' hb'
      exact ⟨a',List.mem_cons_of_mem a ha',hp'⟩

theorem caseTarget_follows {value : ℤ} {values targets targets' : List ℤ} {last last' : ℤ} (h : List.Forall₂ R targets targets')
    (hlast : R last last') : R (caseTarget value values targets last) (caseTarget value values targets' last') := by
  induction h generalizing values with
  | nil => cases values <;> exact hlast
  | cons hhead _ ih =>
    cases values with
    | nil => exact hlast
    | cons v values =>
      rw [caseTarget,caseTarget]
      split_ifs
      · exact hhead
      · exact ih

theorem Follows.tried {call : Tried} {before after : Terminator} {normal normal' unwind unwind' : ℤ}
    (hbefore : ∀ {σ : Type} (M : Meaning σ) (label : String) (s : σ),
      leads M label s before = Pruning.tried M label call normal unwind s)
    (hafter : ∀ {σ : Type} (M : Meaning σ) (label : String) (s : σ),
      leads M label s after = Pruning.tried M label call normal' unwind' s)
    (hn : R normal normal') (hu : R unwind unwind') {result errorResult : ℤ}
    (hedges : edgesOf before = [(normal,[result]),(unwind,[errorResult])]) (hedges' : edgesOf after = [(normal',[result]),(unwind',[errorResult])])
    (huses : terminatorUsesOf after = terminatorUsesOf before) (hdistinct : Distinct before → Distinct after) : Follows R before after := by
  refine ⟨fun M label s o h => ?_,fun M label s target s' h => ?_,?_,fun _ h => huses ▸ h,hdistinct⟩
  · rw [hbefore,Pruning.tried] at h
    rw [hafter,Pruning.tried]
    cases ht : M.tries label call s with
    | none => rwa [ht] at h
    | some answer =>
      rw [ht] at h
      cases h
  · rw [hbefore,Pruning.tried] at h
    rw [hafter,Pruning.tried]
    cases ht : M.tries label call s with
    | none =>
      rw [ht] at h
      cases h
    | some answer =>
      rw [ht] at h
      obtain ⟨returned,s''⟩ := answer
      cases h
      cases returned with
      | true => exact ⟨normal',hn,rfl⟩
      | false => exact ⟨unwind',hu,rfl⟩
  · rw [hedges,hedges']
    exact forall₂_source (.cons ⟨hn,rfl⟩ (.cons ⟨hu,rfl⟩ .nil))

theorem retarget_follows (h : ∀ target ∈ successorsOfTerminator terminator, ∃ target', lookup target = some target' ∧ R target target') :
    ∃ terminator', retarget lookup terminator = some terminator' ∧ Follows R terminator terminator' ∧
      List.Forall₂ R (successorsOfTerminator terminator) (successorsOfTerminator terminator') := by
  cases terminator with
  | ret value => exact ⟨.ret value,rfl,.ended (fun _ _ _ _ h => by cases h) rfl,.nil⟩
  | unreachable => exact ⟨.unreachable,rfl,.ended (fun _ _ _ _ h => by cases h) rfl,.nil⟩
  | propagate error => exact ⟨.propagate error,rfl,.ended (fun _ _ _ _ h => by cases h) rfl,.nil⟩
  | jump target =>
    obtain ⟨target',hl,hr⟩ := h target (List.mem_singleton_self _)
    refine ⟨.jump target',by rw [retarget,hl]; rfl,⟨fun _ _ _ _ h => (by cases h),fun M _ s t s' h => ?_,
      forall₂_source (.cons ⟨hr,rfl⟩ .nil),fun _ h => h,fun h => h⟩,.cons hr .nil⟩
    cases h
    exact ⟨target',hr,rfl⟩
  | branch condition thenTarget elseTarget =>
    obtain ⟨then',hl,hr⟩ := h thenTarget List.mem_cons_self
    obtain ⟨else',hl',hr'⟩ := h elseTarget (List.mem_cons_of_mem _ (List.mem_singleton_self _))
    refine ⟨.branch condition then' else',by rw [retarget,hl,hl']; rfl,⟨fun _ _ _ _ h => (by cases h),fun M _ s t s' h => ?_,
      forall₂_source (.cons ⟨hr,rfl⟩ (.cons ⟨hr',rfl⟩ .nil)),fun _ h => h,fun h => h⟩,.cons hr (.cons hr' .nil)⟩
    cases h
    refine ⟨if M.truth condition s then then' else else',?_,rfl⟩
    split_ifs
    · exact hr
    · exact hr'
  | switch value caseValues caseTargets defaultTarget =>
    obtain ⟨targets,hl,hall⟩ := mapM_some fun target ht => h target (List.mem_append_left _ ht)
    obtain ⟨default',hl',hr⟩ := h defaultTarget (List.mem_append_right _ (List.mem_singleton_self _))
    have htargets : List.Forall₂ R (caseTargets ++ [defaultTarget]) (targets ++ [default']) := List.rel_append hall (.cons hr .nil)
    have hedges : List.Forall₂ (fun edge edge' => R edge.1 edge'.1 ∧ edge.2 = edge'.2) (edgesOf (.switch value caseValues caseTargets defaultTarget))
        (edgesOf (.switch value caseValues targets default')) := by
      simp only [edgesOf,List.forall₂_map_left_iff,List.forall₂_map_right_iff]
      exact htargets.imp fun _ _ h => ⟨h,trivial⟩
    refine ⟨.switch value caseValues targets default',by rw [retarget,hl,hl']; rfl,
      ⟨fun _ _ _ _ h => (by cases h),fun M _ s t s' h => ?_,forall₂_source hedges,fun _ h => h,fun h => h⟩,htargets⟩
    cases h
    exact ⟨_,caseTarget_follows hall hr,rfl⟩
  | tryCall result receiver arguments errorResult normalTarget unwindTarget =>
    obtain ⟨normal',hl,hr⟩ := h normalTarget List.mem_cons_self
    obtain ⟨unwind',hl',hr'⟩ := h unwindTarget (List.mem_cons_of_mem _ (List.mem_singleton_self _))
    exact ⟨.tryCall result receiver arguments errorResult normal' unwind',by rw [retarget,hl,hl']; rfl,
      .tried (fun _ _ _ => rfl) (fun _ _ _ => rfl) hr hr' rfl rfl rfl fun h => h,.cons hr (.cons hr' .nil)⟩
  | tryClosureCall result closure arguments errorResult normalTarget unwindTarget =>
    obtain ⟨normal',hl,hr⟩ := h normalTarget List.mem_cons_self
    obtain ⟨unwind',hl',hr'⟩ := h unwindTarget (List.mem_cons_of_mem _ (List.mem_singleton_self _))
    exact ⟨.tryClosureCall result closure arguments errorResult normal' unwind',by rw [retarget,hl,hl']; rfl,
      .tried (fun _ _ _ => rfl) (fun _ _ _ => rfl) hr hr' rfl rfl rfl fun h => h,.cons hr (.cons hr' .nil)⟩

theorem caseTarget_all {value last : ℤ} {values targets : List ℤ} (h : ∀ target ∈ targets, target = last) :
    caseTarget value values targets last = last := by
  induction targets generalizing values with
  | nil => cases values <;> rfl
  | cons target targets ih =>
    cases values with
    | nil => rfl
    | cons v values =>
      rw [caseTarget,ih fun t ht => h t (List.mem_cons_of_mem _ ht),h target List.mem_cons_self,ite_self]

theorem merged_follows (hr : ∀ target, R target target) (h : Follows R terminator terminator') : Follows R terminator (merged terminator terminator') := by
  cases terminator' with
  | branch condition thenTarget elseTarget =>
    rw [merged]
    split_ifs with heq
    · refine h.joins List.mem_cons_self fun M _ s => ?_
      rw [leads,leads,heq,ite_self]
    · exact h
  | switch value caseValues caseTargets defaultTarget =>
    rw [merged]
    split_ifs with hall
    · refine h.joins (List.mem_map.mpr ⟨defaultTarget,List.mem_append_right _ (List.mem_singleton_self _),rfl⟩) fun M _ s => ?_
      rw [leads,leads,caseTarget_all fun target ht => of_decide_eq_true (List.all_eq_true.mp hall target ht)]
    · exact h
  | tryCall result receiver arguments errorResult normalTarget unwindTarget =>
    rw [merged]
    split_ifs
    · exact .refl hr
    · exact h
  | tryClosureCall result closure arguments errorResult normalTarget unwindTarget =>
    rw [merged]
    split_ifs
    · exact .refl hr
    · exact h
  | _ => exact h

theorem merged_within : ∀ target ∈ successorsOfTerminator (merged terminator terminator'),
    target ∈ successorsOfTerminator terminator ∨ target ∈ successorsOfTerminator terminator' := by
  intro target ht
  cases terminator' with
  | branch condition thenTarget elseTarget =>
    rw [merged] at ht
    split_ifs at ht
    · exact .inr (List.mem_cons.mpr (.inl (List.mem_singleton.mp ht)))
    · exact .inr ht
  | switch value caseValues caseTargets defaultTarget =>
    rw [merged] at ht
    split_ifs at ht
    · exact .inr (List.mem_append_right _ ht)
    · exact .inr ht
  | tryCall result receiver arguments errorResult normalTarget unwindTarget =>
    rw [merged] at ht
    split_ifs at ht
    · exact .inl ht
    · exact .inr ht
  | tryClosureCall result closure arguments errorResult normalTarget unwindTarget =>
    rw [merged] at ht
    split_ifs at ht
    · exact .inl ht
    · exact .inr ht
  | _ => exact .inr ht

/-! ### Threading -/

def Inside (f : EirFunction) (target : ℤ) : Prop := 0 ≤ target ∧ target < f.blocks.length

theorem forwarded_ok (hf : Formed f) : ∃ forwarded : List ℤ,
    (List.range f.blocks.length).mapM (fun (b : ℕ) => resolveForwarding f.blocks (f.blocks.length + 1) [] b) = some forwarded ∧
      ∀ target, Inside f target → ∃ target', entryAt forwarded target = some target' ∧ Forwards f target target' ∧ Inside f target' := by
  have heach : ∀ b ∈ List.range f.blocks.length, ∃ target', resolveForwarding f.blocks (f.blocks.length + 1) [] (b : ℕ) = some target' ∧
      Forwards f (b : ℕ) target' ∧ Inside f target' := by
    intro b hb
    have hlt := List.mem_range.mp hb
    have hroom : f.blocks.length < f.blocks.length + 1 + ([] : List ℕ).length := by
      rw [List.length_nil]
      omega
    obtain ⟨target,ht,h0,hin,hrun⟩ := resolveForwarding_ok hf List.nodup_nil (fun b hb => absurd hb List.not_mem_nil) hroom
      (Int.natCast_nonneg b) (Int.ofNat_lt.mpr hlt)
    exact ⟨target,ht,hrun,h0,hin⟩
  obtain ⟨forwarded,hsome,hall⟩ := mapM_some heach
  refine ⟨forwarded,hsome,fun target hin => ?_⟩
  obtain ⟨h0,hlt⟩ := hin
  have hlen : f.blocks.length = forwarded.length := List.length_range.symm.trans hall.length_eq
  have hlt' : target < forwarded.length := by omega
  obtain ⟨target',hentry,hget⟩ := entryAt_some h0 hlt'
  obtain ⟨hn,hvalue⟩ := List.getElem?_eq_some_iff.mp hget
  have hp := hall.get (i := target.toNat) (by rw [List.length_range]; omega) hn
  rw [List.get_eq_getElem,List.get_eq_getElem,List.getElem_range,hvalue,Int.toNat_of_nonneg h0] at hp
  exact ⟨target',hentry,hp⟩

structure Threads (f : EirFunction) (block : Block) (terminator' : Terminator) : Prop where
  follows : ∃ terminator, block.terminator = some terminator ∧ Follows (Forwards f) terminator terminator'
  inside : ∀ target ∈ successorsOfTerminator terminator', Inside f target

theorem threaded_ok (hf : Formed f) : ∃ forwarded threaded,
    (List.range f.blocks.length).mapM (fun (b : ℕ) => resolveForwarding f.blocks (f.blocks.length + 1) [] b) = some forwarded ∧
      f.blocks.mapM (fun block => do threadTargets (← block.terminator) forwarded) = some threaded ∧
      List.Forall₂ (Threads f) f.blocks threaded := by
  obtain ⟨forwarded,hforwarded,hlookup⟩ := forwarded_ok hf
  have heach : ∀ block ∈ f.blocks, ∃ terminator', (do threadTargets (← block.terminator) forwarded) = some terminator' ∧
      Threads f block terminator' := by
    intro block hb
    obtain ⟨terminator,ht,hin⟩ := hf.terminated hb
    obtain ⟨terminator',hr,hfollows,hall⟩ := retarget_follows fun target htarget => hlookup target (hin target htarget)
    refine ⟨merged terminator terminator',?_,⟨terminator,ht,merged_follows Forwards.refl ?_⟩,fun target htarget => ?_⟩
    · rw [ht]
      exact congrArg (Option.map (merged terminator)) hr
    · exact hfollows.imp fun _ _ h => h.1
    · rcases merged_within target htarget with h | h
      · exact hin target h
      · obtain ⟨before,-,hin'⟩ := forall₂_source hall target h
        exact hin'.2
  obtain ⟨threaded,hthreaded,hall⟩ := mapM_some heach
  exact ⟨forwarded,threaded,hforwarded,hthreaded,hall⟩

def threadedFunction (f : EirFunction) (threaded : List Terminator) : EirFunction :=
  { f with blocks := List.zipWith (fun block terminator => { block with terminator := some terminator }) f.blocks threaded }

theorem threadedFunction_get {threaded : List Terminator} {b : ℕ} (h : List.Forall₂ (Threads f) f.blocks threaded) (hb : f.blocks[b]? = some block) :
    ∃ terminator', threaded[b]? = some terminator' ∧ Threads f block terminator' ∧
      (threadedFunction f threaded).blocks[b]? = some { block with terminator := some terminator' } := by
  obtain ⟨hlt,hget⟩ := List.getElem?_eq_some_iff.mp hb
  have hlt' : b < threaded.length := h.length_eq ▸ hlt
  have hp := h.get hlt hlt'
  rw [List.get_eq_getElem,List.get_eq_getElem,hget] at hp
  refine ⟨threaded[b],List.getElem?_eq_getElem hlt',hp,?_⟩
  rw [threadedFunction,List.getElem?_zipWith,hb,List.getElem?_eq_getElem hlt']

theorem threadedFunction_enter {threaded : List Terminator} {σ : Type} {s : σ} (h : List.Forall₂ (Threads f) f.blocks threaded) :
    enter (threadedFunction f threaded) target s = enter f target s := by
  rw [enter,enter]
  cases hb : f.blocks[target.toNat]? with
  | none =>
    rw [threadedFunction,List.getElem?_zipWith,hb]
  | some block =>
    obtain ⟨terminator',-,-,hget⟩ := threadedFunction_get h hb
    rw [hget]
    rfl

theorem step_within {σ : Type} (M : Meaning σ) (f g : EirFunction) {c : Config σ} (hrest : c.rest ≠ []) : step M f c = step M g c := by
  obtain ⟨instruction,rest,hcons⟩ := List.exists_cons_of_ne_nil hrest
  rw [step,step,hcons]

theorem step_broken {σ : Type} (M : Meaning σ) {c : Config σ} (hrest : c.rest = []) (hb : f.blocks[c.block]? = none) :
    step M f c = .inr (.broken c.state) := by
  rw [step,hrest]
  dsimp only
  rw [hb]
  rfl

theorem step_ended {σ : Type} (M : Meaning σ) {c : Config σ} (hrest : c.rest = []) (hb : f.blocks[c.block]? = some block)
    (ht : block.terminator = some terminator) :
    step M f c = (leads M c.label c.state terminator).elim (fun answer => .inl (enter f answer.1 answer.2)) .inr := by
  rw [step,hrest]
  dsimp only
  rw [hb,Option.bind_some,ht]
  dsimp only
  cases leads M c.label c.state terminator <;> rfl

theorem threaded_agree {threaded : List Terminator} {σ : Type} (M : Meaning σ) (h : List.Forall₂ (Threads f) f.blocks threaded) (c : Config σ) :
    (∀ s, Shows (step M (threadedFunction f threaded)) Config.state c s ↔ Shows (step M f) Config.state c s) ∧
      ∀ o, Ends (step M (threadedFunction f threaded)) c o ↔ Ends (step M f) c o := by
  refine skips_agree (fun c o ho => ?_) (fun c d hd => ?_) c
  · by_cases hrest : c.rest = []
    · cases hb : f.blocks[c.block]? with
      | none =>
        have hnone : (threadedFunction f threaded).blocks[c.block]? = none := by
          rw [threadedFunction,List.getElem?_zipWith,hb]
        rw [step_broken M hrest hb] at ho
        rw [step_broken M hrest hnone]
        exact ho
      | some block =>
        obtain ⟨terminator',-,⟨⟨terminator,ht,hfollows⟩,-⟩,hget⟩ := threadedFunction_get h hb
        rw [step_ended M hrest hb ht] at ho
        rw [step_ended M hrest hget rfl]
        cases hleads : leads M c.label c.state terminator with
        | inl answer =>
          rw [hleads] at ho
          cases ho
        | inr o' =>
          rw [hleads] at ho
          rw [hfollows.ends M c.label c.state o' hleads]
          exact ho
    · rw [step_within M _ f hrest]
      exact ho
  · by_cases hrest : c.rest = []
    · cases hb : f.blocks[c.block]? with
      | none =>
        rw [step_broken M hrest hb] at hd
        cases hd
      | some block =>
        obtain ⟨terminator',-,⟨⟨terminator,ht,hfollows⟩,-⟩,hget⟩ := threadedFunction_get h hb
        rw [step_ended M hrest hb ht] at hd
        rw [step_ended M hrest hget rfl]
        cases hleads : leads M c.label c.state terminator with
        | inr o =>
          rw [hleads] at hd
          cases hd
        | inl answer =>
          obtain ⟨target,s⟩ := answer
          rw [hleads] at hd
          cases hd
          obtain ⟨target',hforwards,hleads'⟩ := hfollows.goes M c.label c.state target s hleads
          obtain ⟨k,hk⟩ := hforwards.silent M s
          rw [hleads']
          exact ⟨k,enter f target' s,congrArg Sum.inl (threadedFunction_enter h),hk⟩
    · rw [step_within M _ f hrest]
      exact ⟨0,d,hd,.refl d⟩

/-! ### Reachable blocks -/

def Leads (terminators : List Terminator) (a b : ℕ) : Prop := ∃ terminator, terminators[a]? = some terminator ∧
  (b : ℤ) ∈ successorsOfTerminator terminator

structure Followed (count : ℕ) (successors : List ℤ) (r r' : Reaching) : Prop where
  kept : ∀ b ∈ r.reached, b ∈ r'.reached
  waits : ∀ b ∈ r.pending, b ∈ r'.pending
  new : ∀ b ∈ r'.reached, b ∈ r.reached ∨ b ∈ r'.pending ∧ b < count ∧ (b : ℤ) ∈ successors
  marked : ∀ b ∈ r'.pending, b ∈ r.pending ∨ b ∈ r'.reached
  nodup : r.reached.Nodup → r'.reached.Nodup
  size : r'.reached.length + r.pending.length = r.reached.length + r'.pending.length
  all : ∀ successor ∈ successors, 0 ≤ successor → successor < count → successor.toNat ∈ r'.reached

theorem follow_followed {count : ℕ} {r : Reaching} {successor : ℤ} : Followed count [successor] r (follow count r successor) := by
  rw [follow]
  split_ifs with h
  · obtain ⟨h0,hlt,hmem⟩ := h
    refine ⟨fun b hb => List.mem_cons_of_mem _ hb,fun b hb => List.mem_cons_of_mem _ hb,fun b hb => ?_,fun b hb => ?_,
      fun hn => List.nodup_cons.mpr ⟨hmem,hn⟩,?_,fun x hx _ _ => ?_⟩
    · rcases List.mem_cons.mp hb with rfl | hb
      · exact .inr ⟨List.mem_cons_self,by omega,List.mem_singleton.mpr (Int.toNat_of_nonneg h0)⟩
      · exact .inl hb
    · rcases List.mem_cons.mp hb with rfl | hb
      · exact .inr List.mem_cons_self
      · exact .inl hb
    · simp only [List.length_cons]
      omega
    · rw [List.mem_singleton.mp hx]
      exact List.mem_cons_self
  · refine ⟨fun b hb => hb,fun b hb => hb,fun b hb => .inl hb,fun b hb => .inl hb,fun hn => hn,rfl,fun x hx h0 hlt => ?_⟩
    obtain rfl := List.mem_singleton.mp hx
    by_contra hmem
    exact h ⟨h0,hlt,hmem⟩

theorem Followed.trans {count : ℕ} {xs ys : List ℤ} {r r' r'' : Reaching} (h : Followed count xs r r') (h' : Followed count ys r' r'') :
    Followed count (xs ++ ys) r r'' := by
  refine ⟨fun b hb => h'.kept b (h.kept b hb),fun b hb => h'.waits b (h.waits b hb),fun b hb => ?_,fun b hb => ?_,
    fun hn => h'.nodup (h.nodup hn),by have := h.size; have := h'.size; omega,fun x hx h0 hlt => ?_⟩
  · rcases h'.new b hb with hb | ⟨hb,hlt,hx⟩
    · rcases h.new b hb with hb | ⟨hb,hlt,hx⟩
      · exact .inl hb
      · exact .inr ⟨h'.waits b hb,hlt,List.mem_append_left _ hx⟩
    · exact .inr ⟨hb,hlt,List.mem_append_right _ hx⟩
  · rcases h'.marked b hb with hb | hb
    · exact (h.marked b hb).imp_right (h'.kept b)
    · exact .inr hb
  · rcases List.mem_append.mp hx with hx | hx
    · exact h'.kept _ (h.all x hx h0 hlt)
    · exact h'.all x hx h0 hlt

theorem foldl_followed {count : ℕ} {xs : List ℤ} {r : Reaching} : Followed count xs r (xs.foldl (follow count) r) := by
  induction xs generalizing r with
  | nil => exact ⟨fun b hb => hb,fun b hb => hb,fun b hb => .inl hb,fun b hb => .inl hb,fun hn => hn,rfl,fun x hx => by cases hx⟩
  | cons x xs ih => exact follow_followed.trans ih

structure Searched (terminators : List Terminator) (count : ℕ) (r : Reaching) : Prop where
  first : 0 ∈ r.reached
  path : ∀ b ∈ r.reached, b < count ∧ Relation.ReflTransGen (Leads terminators) 0 b
  nodup : r.reached.Nodup
  marked : ∀ b ∈ r.pending, b ∈ r.reached
  closed : ∀ b ∈ r.reached, b ∈ r.pending ∨
    ∀ terminator, terminators[b]? = some terminator → ∀ target ∈ successorsOfTerminator terminator, target.toNat ∈ r.reached

theorem Searched.next {terminators : List Terminator} {reached pending : List ℕ} {current : ℕ}
    (hin : ∀ terminator ∈ terminators, ∀ target ∈ successorsOfTerminator terminator, 0 ≤ target ∧ target < terminators.length)
    (h : Searched terminators terminators.length ⟨reached,current :: pending⟩) (hget : terminators[current]? = some terminator) {r : Reaching}
    (hr : (successorsOfTerminator terminator).foldl (follow terminators.length) ⟨reached,pending⟩ = r) :
    Searched terminators terminators.length r ∧
      terminators.length - r.reached.length + r.pending.length < terminators.length - reached.length + (pending.length + 1) := by
  obtain ⟨hlt,hpath⟩ := h.path current (h.marked current List.mem_cons_self)
  have hf : Followed terminators.length (successorsOfTerminator terminator) ⟨reached,pending⟩ r := hr ▸ foldl_followed
  have hnodup := hf.nodup h.nodup
  have hpaths : ∀ b ∈ r.reached, b < terminators.length ∧ Relation.ReflTransGen (Leads terminators) 0 b := by
    intro b hb
    rcases hf.new b hb with hb | ⟨-,hlt',hx⟩
    · exact h.path b hb
    · exact ⟨hlt',hpath.tail ⟨_,hget,hx⟩⟩
  refine ⟨⟨hf.kept 0 h.first,hpaths,hnodup,fun b hb => ?_,fun b hb => ?_⟩,?_⟩
  · rcases hf.marked b hb with hb | hb
    · exact hf.kept b (h.marked b (List.mem_cons_of_mem _ hb))
    · exact hb
  · rcases hf.new b hb with hb | ⟨hb,-,-⟩
    · rcases h.closed b hb with hp | hclosed
      · rcases List.mem_cons.mp hp with rfl | hp
        · refine .inr fun terminator' ht target htarget => ?_
          obtain rfl := Option.some.inj (hget.symm.trans ht)
          obtain ⟨h0,hlt'⟩ := hin _ (List.mem_of_getElem? hget) target htarget
          exact hf.all target htarget h0 hlt'
        · exact .inl (hf.waits b hp)
      · exact .inr fun terminator' ht target htarget => hf.kept _ (hclosed terminator' ht target htarget)
    · exact .inl hb
  · have hsize := hf.size
    have hle := length_le_of_nodup hnodup fun b hb => (hpaths b hb).1
    dsimp only at hsize
    omega

theorem reachable_ok {terminators : List Terminator} (hpos : 0 < terminators.length)
    (hin : ∀ terminator ∈ terminators, ∀ target ∈ successorsOfTerminator terminator, 0 ≤ target ∧ target < terminators.length) :
    ∃ reached, reachable terminators terminators.length = .ok reached ∧ Searched terminators terminators.length ⟨reached,[]⟩ := by
  rw [reachable]
  refine loop_ok (I := Searched terminators terminators.length) (Q := fun reached => Searched terminators terminators.length ⟨reached,[]⟩)
    (fun r => terminators.length - r.reached.length + r.pending.length) (fun r h => ?_) ?_ ?_
  · obtain ⟨reached,pending⟩ := r
    cases pending with
    | nil => exact .inl ⟨reached,rfl,h⟩
    | cons current pending =>
      have hget := List.getElem?_eq_getElem (h.path current (h.marked current List.mem_cons_self)).1
      refine .inr ⟨_,?_,h.next hin hget rfl⟩
      dsimp only
      rw [hget]
  · exact ⟨List.mem_singleton_self 0,by
      intro b hb
      obtain rfl := List.mem_singleton.mp hb
      exact ⟨hpos,.refl⟩,List.nodup_singleton 0,fun b hb => hb,fun b hb => .inl hb⟩
  · simp only [List.length_cons,List.length_nil]
    omega

/-! ### Renumbering -/

def kept (reached : List ℕ) (count : ℕ) : List ℕ := (List.range count).filter fun b => b ∈ reached

def rank (reached : List ℕ) (b : ℕ) : ℕ := (kept reached b).length

theorem kept_succ {reached : List ℕ} {count : ℕ} :
    kept reached (count + 1) = kept reached count ++ if count ∈ reached then [count] else [] := by
  rw [kept,List.range_succ,List.filter_append,kept]
  by_cases h : count ∈ reached
  · simp [h]
  · simp [h]

theorem remapOf_eq {reached : List ℕ} {count : ℕ} :
    remapOf reached count = ((List.range count).map fun b => if b ∈ reached then (rank reached b : ℤ) else -1,(rank reached count : ℤ)) := by
  induction count with
  | zero => rfl
  | succ count ih =>
    rw [remapOf] at ih ⊢
    rw [List.range_succ,List.foldl_append,ih,List.foldl_cons,List.foldl_nil,List.map_append,List.map_singleton]
    have hrank : rank reached (count + 1) = rank reached count + if count ∈ reached then 1 else 0 := by
      rw [rank,kept_succ,List.length_append,rank]
      split_ifs <;> rfl
    rw [hrank]
    dsimp only
    by_cases h : count ∈ reached
    · rw [if_pos h,if_pos h,if_pos h,Int.natCast_add]
      rfl
    · rw [if_neg h,if_neg h,if_neg h,Nat.add_zero]

theorem remapOf_get {reached : List ℕ} {count b : ℕ} (hlt : b < count) (hmem : b ∈ reached) :
    entryAt (remapOf reached count).1 b = some (rank reached b : ℤ) := by
  rw [entryAt,if_pos (Int.natCast_nonneg b),Int.toNat_natCast,remapOf_eq,List.getElem?_map,List.getElem?_range hlt,Option.map_some,if_pos hmem]

theorem kept_get {reached : List ℕ} {count b : ℕ} (hlt : b < count) (hmem : b ∈ reached) : (kept reached count)[rank reached b]? = some b := by
  induction count with
  | zero => omega
  | succ count ih =>
    rw [kept_succ]
    rcases Nat.lt_succ_iff_lt_or_eq.mp hlt with h | rfl
    · have hget := ih h
      rwa [List.getElem?_append_left (List.getElem?_eq_some_iff.mp hget).1]
    · rw [if_pos hmem,rank,List.getElem?_append_right (Nat.le_refl _),Nat.sub_self]
      rfl

theorem kept_rank {reached : List ℕ} {count place b : ℕ} (h : (kept reached count)[place]? = some b) :
    b < count ∧ b ∈ reached ∧ place = rank reached b := by
  induction count with
  | zero => cases h
  | succ count ih =>
    rw [kept_succ] at h
    rcases Nat.lt_or_ge place (kept reached count).length with hlt | hge
    · rw [List.getElem?_append_left hlt] at h
      obtain ⟨hb,hmem,hplace⟩ := ih h
      exact ⟨Nat.lt_succ_of_lt hb,hmem,hplace⟩
    · rw [List.getElem?_append_right hge] at h
      split_ifs at h with hmem
      · obtain ⟨hplace,hb⟩ := List.getElem?_eq_some_iff.mp h
        rw [List.length_singleton] at hplace
        obtain rfl : count = b := by rw [← hb,List.getElem_singleton]
        exact ⟨Nat.lt_succ_self count,hmem,by rw [rank]; omega⟩
      · cases h

/-- The number of a block after the others are dropped. -/
def Renamed (reached : List ℕ) (target target' : ℤ) : Prop := target.toNat ∈ reached ∧ target' = rank reached target.toNat

structure Rebuilt (f : EirFunction) (threaded : List Terminator) (reached : List ℕ) (b : ℕ) (block : Block) : Prop where
  source : ∃ before terminator terminator', f.blocks[b]? = some before ∧ threaded[b]? = some terminator ∧
    block = { label := before.label, instructions := before.instructions, terminator := some terminator' } ∧
    Follows (Renamed reached) terminator terminator' ∧
    List.Forall₂ (Renamed reached) (successorsOfTerminator terminator) (successorsOfTerminator terminator')

theorem rebuild_ok {threaded : List Terminator} {reached : List ℕ} (hlen : f.blocks.length = threaded.length)
    (hin : ∀ terminator ∈ threaded, ∀ target ∈ successorsOfTerminator terminator, Inside f target)
    (h : Searched threaded threaded.length ⟨reached,[]⟩) :
    ∃ blocks, rebuild f threaded reached (remapOf reached f.blocks.length).1 = some blocks ∧
      List.Forall₂ (Rebuilt f threaded reached) (kept reached f.blocks.length) blocks := by
  refine mapM_some fun b hb => ?_
  obtain ⟨hrange,hmem⟩ := List.mem_filter.mp hb
  have hlt := List.mem_range.mp hrange
  have hreached := of_decide_eq_true hmem
  have hlt' : b < threaded.length := hlen ▸ hlt
  have hget := List.getElem?_eq_getElem hlt'
  have heach : ∀ target ∈ successorsOfTerminator threaded[b], ∃ target', entryAt (remapOf reached f.blocks.length).1 target = some target' ∧
      Renamed reached target target' := by
    intro target htarget
    obtain ⟨h0,hlt''⟩ := hin _ (List.getElem_mem hlt') target htarget
    have hclosed : target.toNat ∈ reached := by
      rcases h.closed b hreached with hp | hclosed
      · cases hp
      · exact hclosed _ hget target htarget
    have htlt : target.toNat < f.blocks.length := by omega
    have hentry := remapOf_get htlt hclosed
    rw [Int.toNat_of_nonneg h0] at hentry
    exact ⟨rank reached target.toNat,hentry,hclosed,rfl⟩
  obtain ⟨terminator',hr,hfollows,hall⟩ := retarget_follows heach
  refine ⟨_,?_,⟨f.blocks[b],threaded[b],terminator',List.getElem?_eq_getElem hlt,hget,rfl,hfollows,hall⟩⟩
  rw [List.getElem?_eq_getElem hlt,hget]
  dsimp only [Option.bind_eq_bind,Option.bind_some]
  rw [remapTargets,hr]
  rfl

/-! ### The pass as a whole -/

def EdgeOf (f : EirFunction) (a b : ℕ) : Prop := ∃ block, f.blocks[a]? = some block ∧ (b : ℤ) ∈ successorsOf block

section
variable {threaded : List Terminator} {reached : List ℕ} {blocks : List Block}

theorem Rebuilt.at (h : List.Forall₂ (Rebuilt f threaded reached) (kept reached f.blocks.length) blocks) {b : ℕ} (hlt : b < f.blocks.length)
    (hmem : b ∈ reached) : ∃ block, blocks[rank reached b]? = some block ∧ Rebuilt f threaded reached b block := by
  obtain ⟨hn,hget⟩ := List.getElem?_eq_some_iff.mp (kept_get hlt hmem)
  have hn' : rank reached b < blocks.length := h.length_eq ▸ hn
  have hp := h.get hn hn'
  rw [List.get_eq_getElem,List.get_eq_getElem,hget] at hp
  exact ⟨blocks[rank reached b],List.getElem?_eq_getElem hn',hp⟩

theorem Rebuilt.of (h : List.Forall₂ (Rebuilt f threaded reached) (kept reached f.blocks.length) blocks) {place : ℕ} {block : Block}
    (hget : blocks[place]? = some block) : ∃ b, b < f.blocks.length ∧ b ∈ reached ∧ place = rank reached b ∧ Rebuilt f threaded reached b block := by
  obtain ⟨hn,hvalue⟩ := List.getElem?_eq_some_iff.mp hget
  have hn' : place < (kept reached f.blocks.length).length := h.length_eq ▸ hn
  obtain ⟨hb,hmem,hplace⟩ := kept_rank (List.getElem?_eq_getElem hn')
  have hp := h.get hn' hn
  rw [List.get_eq_getElem,List.get_eq_getElem,hvalue] at hp
  exact ⟨_,hb,hmem,hplace,hp⟩

def renumber {σ : Type} (reached : List ℕ) (c : Config σ) : Config σ := { c with block := rank reached c.block }

theorem rank_zero : rank reached 0 = 0 := rfl

theorem renumber_enter {σ : Type} {s : σ} (hall : List.Forall₂ (Threads f) f.blocks threaded)
    (h : List.Forall₂ (Rebuilt f threaded reached) (kept reached f.blocks.length) blocks) (hlt : target.toNat < f.blocks.length)
    (hmem : target.toNat ∈ reached) :
    enter { f with blocks } (rank reached target.toNat) s = renumber reached (enter (threadedFunction f threaded) target s) := by
  obtain ⟨block,hget,⟨before,_,_,hb,-,rfl,-,-⟩⟩ := Rebuilt.at h hlt hmem
  rw [threadedFunction_enter hall,renumber,enter,enter,Int.toNat_natCast,hb]
  dsimp only
  rw [hget]
  rfl

theorem renumber_step {σ : Type} (M : Meaning σ) (hall : List.Forall₂ (Threads f) f.blocks threaded)
    (h : List.Forall₂ (Rebuilt f threaded reached) (kept reached f.blocks.length) blocks) {c : Config σ}
    (hlt : ∀ b ∈ reached, b < f.blocks.length) (hmem : c.block ∈ reached) :
    step M { f with blocks } (renumber reached c) = (step M (threadedFunction f threaded) c).map (renumber reached) id ∧
      ∀ d, step M (threadedFunction f threaded) c = .inl d → d.block ∈ reached := by
  rw [step,step,renumber]
  dsimp only
  cases hrest : c.rest with
  | cons instruction rest =>
    dsimp only
    cases M.runs c.label rest.length instruction c.state with
    | none => exact ⟨rfl,fun d hd => by cases hd⟩
    | some s =>
      refine ⟨rfl,fun d hd => ?_⟩
      cases hd
      exact hmem
  | nil =>
    obtain ⟨block,hget,⟨before,terminator,terminator',hb,ht,rfl,hfollows,-⟩⟩ := Rebuilt.at h (hlt _ hmem) hmem
    obtain ⟨terminator'',ht',-,hget'⟩ := threadedFunction_get hall hb
    obtain rfl := Option.some.inj (ht'.symm.trans ht)
    dsimp only
    rw [hget,hget',Option.bind_some,Option.bind_some]
    dsimp only
    cases hleads : leads M c.label c.state terminator'' with
    | inr o =>
      rw [hfollows.ends M c.label c.state o hleads]
      exact ⟨rfl,fun d hd => by cases hd⟩
    | inl answer =>
      obtain ⟨target,s⟩ := answer
      obtain ⟨target',⟨hreached,rfl⟩,hleads'⟩ := hfollows.goes M c.label c.state target s hleads
      rw [hleads']
      refine ⟨congrArg Sum.inl (renumber_enter hall h (hlt _ hreached) hreached),fun d hd => ?_⟩
      cases hd
      exact hreached

end

theorem some_bind {α β : Type} (a : α) (k : α → Option β) : (some a >>= k) = k a := rfl

theorem run_parts (hf : Formed f) (hne : f.blocks.length ≠ 0) : ∃ threaded reached blocks, run f = some { f with blocks } ∧
    List.Forall₂ (Threads f) f.blocks threaded ∧ Searched threaded threaded.length ⟨reached,[]⟩ ∧
    List.Forall₂ (Rebuilt f threaded reached) (kept reached f.blocks.length) blocks := by
  obtain ⟨forwarded,threaded,hforwarded,hthreaded,hall⟩ := threaded_ok hf
  have hlen : f.blocks.length = threaded.length := hall.length_eq
  have hinside : ∀ terminator ∈ threaded, ∀ target ∈ successorsOfTerminator terminator, Inside f target := by
    intro terminator ht
    obtain ⟨block,-,hthreads⟩ := forall₂_source hall terminator ht
    exact hthreads.inside
  have hpos : 0 < threaded.length := by omega
  obtain ⟨reached,hreached,hsearched⟩ := reachable_ok hpos fun terminator ht target htarget => hlen ▸ hinside terminator ht target htarget
  obtain ⟨blocks,hblocks,hrebuilt⟩ := rebuild_ok hlen hinside hsearched
  refine ⟨threaded,reached,blocks,?_,hall,hsearched,hrebuilt⟩
  rw [run,if_neg hne,hforwarded,some_bind,hthreaded,some_bind,hlen,hreached,← hlen,Except.toOption,some_bind,hblocks]
  rfl

/-- Pruning keeps what a function shows and how it ends, whatever its instructions do, and leaves only blocks that its edges reach. -/
theorem run_preserves (hf : Formed f) : ∃ g, run f = some g ∧ Formed g ∧
    (∀ b < g.blocks.length, Relation.ReflTransGen (EdgeOf g) 0 b) ∧
    ∀ {σ : Type} (M : Meaning σ) (s : σ),
      (∀ s', Shows (step M g) Config.state (enter g 0 s) s' ↔ Shows (step M f) Config.state (enter f 0 s) s') ∧
      ∀ o, Ends (step M g) (enter g 0 s) o ↔ Ends (step M f) (enter f 0 s) o := by
  by_cases hempty : f.blocks.length = 0
  · exact ⟨f,if_pos hempty,hf,fun b hb => by omega,fun M s => ⟨fun s' => Iff.rfl,fun o => Iff.rfl⟩⟩
  obtain ⟨threaded,reached,blocks,hrun,hall,hsearched,hrebuilt⟩ := run_parts hf hempty
  have hlen : f.blocks.length = threaded.length := hall.length_eq
  have hlt : ∀ b ∈ reached, b < f.blocks.length := fun b hb => hlen ▸ (hsearched.path b hb).1
  have hpos : (0 : ℤ).toNat < f.blocks.length := by rw [Int.toNat_zero]; omega
  refine ⟨{ f with blocks },hrun,fun block hb => ?_,fun b hb => ?_,fun M s => ?_⟩
  · obtain ⟨place,hplace⟩ := List.getElem?_of_mem hb
    obtain ⟨b,-,-,-,⟨_,_,terminator',-,-,rfl,-,hforall⟩⟩ := Rebuilt.of hrebuilt hplace
    refine ⟨rfl,fun target htarget => ?_⟩
    obtain ⟨before,-,hmem,rfl⟩ := forall₂_source hforall target htarget
    obtain ⟨_,hget,-⟩ := Rebuilt.at hrebuilt (hlt _ hmem) hmem
    exact ⟨Int.natCast_nonneg _,Int.ofNat_lt.mpr (List.getElem?_eq_some_iff.mp hget).1⟩
  · obtain ⟨b',-,hmem,rfl,-⟩ := Rebuilt.of hrebuilt (List.getElem?_eq_getElem hb)
    have hpath : ∀ b', Relation.ReflTransGen (Leads threaded) 0 b' →
        b' ∈ reached ∧ Relation.ReflTransGen (EdgeOf { f with blocks }) 0 (rank reached b') := by
      intro b' hb'
      induction hb' with
      | refl => exact ⟨hsearched.first,.refl⟩
      | @tail b₁ b₂ _ hedge ih =>
        obtain ⟨hmem₁,hrun⟩ := ih
        obtain ⟨block,hget,⟨_,terminator,terminator',-,ht,rfl,-,hforall⟩⟩ := Rebuilt.at hrebuilt (hlt b₁ hmem₁) hmem₁
        obtain ⟨terminator₁,ht₁,hedge⟩ := hedge
        obtain rfl := Option.some.inj (ht₁.symm.trans ht)
        obtain ⟨target',htarget',hmem₂,rfl⟩ := forall₂_source hforall.flip _ hedge
        exact ⟨hmem₂,hrun.tail ⟨_,hget,htarget'⟩⟩
    exact (hpath b' (hsearched.path b' hmem).2).2
  · have hthread := threaded_agree M hall (enter f 0 s)
    have hkeep : ∀ c d : Config _, c.block ∈ reached → step M (threadedFunction f threaded) c = .inl d → d.block ∈ reached :=
      fun c d hc hd => (renumber_step M hall hrebuilt hlt hc).2 d hd
    have hname : (∀ s', Shows (step M { f with blocks }) Config.state (renumber reached (enter f 0 s)) s' ↔
        Shows (step M (threadedFunction f threaded)) Config.state (enter f 0 s) s') ∧ ∀ o,
        Ends (step M { f with blocks }) (renumber reached (enter f 0 s)) o ↔ Ends (step M (threadedFunction f threaded)) (enter f 0 s) o :=
      names_agree hkeep (fun c hc => (renumber_step M hall hrebuilt hlt hc).1) (fun _ => rfl) hsearched.first
    have hstart : renumber reached (enter f 0 s) = enter { f with blocks } 0 s := by
      rw [← threadedFunction_enter hall,← renumber_enter hall hrebuilt hpos hsearched.first]
      rfl
    rw [hstart] at hname
    exact ⟨fun s' => (hname.1 s').trans (hthread.1 s'),fun o => (hname.2 o).trans (hthread.2 o)⟩

def joined : EirFunction where
  symbol := "joined"
  receiver := false
  parameters := 1
  blocks := [{ label := "entry", instructions := [], terminator := some (.branch 0 1 2) },
    { label := "then", instructions := [], terminator := some (.jump 4) },
    { label := "else", instructions := [], terminator := some (.jump 4) },
    { label := "spin", instructions := [], terminator := some (.jump 3) },
    { label := "join", instructions := [.constInt 1,.release 0], terminator := some (.ret 0) }]
  tempCount := 2

theorem run_preserves_joined : ((run joined).map fun g => g.blocks.map Block.label) = some ["entry","join"] ∧
    ∃ g, run joined = some g ∧ Formed g ∧
    (∀ b < g.blocks.length, Relation.ReflTransGen (EdgeOf g) 0 b) ∧
    ∀ {σ : Type} (M : Meaning σ) (s : σ),
      (∀ s', Shows (step M g) Config.state (enter g 0 s) s' ↔ Shows (step M joined) Config.state (enter joined 0 s) s') ∧
      ∀ o, Ends (step M g) (enter g 0 s) o ↔ Ends (step M joined) (enter joined 0 s) o :=
  ⟨by decide,run_preserves (by decide)⟩

/-! ### Temps stay defined -/

theorem Formed.edge (hf : Formed f) (hb : block ∈ f.blocks) (ht : block.terminator = some terminator) {edge : ℤ × List ℤ}
    (hedge : edge ∈ edgesOf terminator) : Inside f edge.1 := by
  obtain ⟨target,defs⟩ := edge
  obtain ⟨terminator₀,ht₀,hin⟩ := hf.terminated hb
  obtain rfl := Option.some.inj (ht.symm.trans ht₀)
  exact hin target (edge_spec hedge).1

section
variable {threaded : List Terminator} {reached : List ℕ} {blocks : List Block}

theorem Threads.at (h : List.Forall₂ (Threads f) f.blocks threaded) {b : ℕ} (hb : f.blocks[b]? = some block) (ht : threaded[b]? = some terminator') :
    ∃ terminator, block.terminator = some terminator ∧ Follows (Forwards f) terminator terminator' := by
  obtain ⟨terminator₁,ht₁,hthreads,-⟩ := threadedFunction_get h hb
  obtain rfl := Option.some.inj (ht₁.symm.trans ht)
  exact hthreads.follows

theorem pruned_path (hf : Formed f) (hall : List.Forall₂ (Threads f) f.blocks threaded)
    (h : List.Forall₂ (Rebuilt f threaded reached) (kept reached f.blocks.length) blocks) (hlt : ∀ b ∈ reached, b < f.blocks.length)
    (hfirst : 0 ∈ reached) {place : ℕ} {rest : List Instruction} {D : Set ℤ} (hp : Path { f with blocks } place rest D) :
    ∃ b ∈ reached, place = rank reached b ∧ Path f b rest D := by
  induction hp with
  | @entry block hblock =>
    obtain ⟨block',hget,⟨before,_,_,hb,-,rfl,-,-⟩⟩ := Rebuilt.at h (hlt 0 hfirst) hfirst
    rw [rank_zero] at hget
    obtain rfl := Option.some.inj (hget.symm.trans hblock)
    have hpath : Path f 0 before.instructions _ := .entry hb
    exact ⟨0,hfirst,rfl,hpath⟩
  | instruction _ ih =>
    obtain ⟨b,hmem,hplace,hpath⟩ := ih
    exact ⟨b,hmem,hplace,hpath.instruction⟩
  | @edge place block next terminator target defs D _ hblock ht hedge h0 hnext ih =>
    obtain ⟨b,hmem,rfl,hpath⟩ := ih
    obtain ⟨block',hget,⟨before,terminator₁,terminator₂,hb,ht₁,rfl,hfollows₂,-⟩⟩ := Rebuilt.at h (hlt b hmem) hmem
    obtain rfl := Option.some.inj (hget.symm.trans hblock)
    obtain rfl := Option.some.inj ht
    obtain ⟨terminator₀,ht₀,hfollows⟩ := Threads.at hall hb ht₁
    -- from the edge of the pruned block back to the threaded one, and from there to the one the block had
    obtain ⟨edge₁,hedge₁,⟨hmem₁,hrank⟩,hdefs₁⟩ := hfollows₂.edges _ hedge
    obtain ⟨edge₀,hedge₀,hforwards,hdefs₀⟩ := hfollows.edges _ hedge₁
    obtain ⟨target₀,defs₀⟩ := edge₀
    obtain ⟨h0₀,hlt₀⟩ := hf.edge (List.mem_of_getElem? hb) ht₀ hedge₀
    obtain ⟨next₀,-,hnext₀⟩ := entryAt_some h0₀ hlt₀
    have hpath₀ := hpath.edge hb ht₀ hedge₀ h0₀ hnext₀
    obtain ⟨next₁,hnext₁,hpath₁⟩ := hforwards.path hnext₀ hpath₀
    obtain ⟨next',hget',⟨before',_,_,hb',-,rfl,-,-⟩⟩ := Rebuilt.at h (hlt _ hmem₁) hmem₁
    dsimp only at hrank hdefs₀ hdefs₁
    subst hrank
    rw [Int.toNat_natCast] at hnext
    obtain rfl := Option.some.inj (hget'.symm.trans hnext)
    obtain rfl := Option.some.inj (hnext₁.symm.trans hb')
    rw [hdefs₀,hdefs₁] at hpath₁
    exact ⟨edge₁.1.toNat,hmem₁,Int.toNat_natCast _,hpath₁⟩

end

/-- The check finds nothing in what is left of a function whose temps are always defined. -/
theorem run_definite {g : EirFunction} (hf : Formed f) (hd : ∀ block ∈ f.blocks, ∀ terminator, block.terminator = some terminator → Distinct terminator)
    (hdef : AlwaysDefined f) (hrun : run f = some g) : checkDefiniteDefinition g = some [] := by
  by_cases hempty : f.blocks.length = 0
  · obtain rfl := Option.some.inj ((if_pos hempty).symm.trans hrun)
    exact if_pos (List.length_eq_zero_iff.mp hempty)
  obtain ⟨threaded,reached,blocks,hrun',hall,hsearched,hrebuilt⟩ := run_parts hf hempty
  obtain rfl := Option.some.inj (hrun'.symm.trans hrun)
  have hlen : f.blocks.length = threaded.length := hall.length_eq
  have hlt : ∀ b ∈ reached, b < f.blocks.length := fun b hb => hlen ▸ (hsearched.path b hb).1
  refine AlwaysDefined.accepted (fun block hb terminator ht => ?_) fun place block rest D used hget hpath hused hvalid => ?_
  · obtain ⟨place,hplace⟩ := List.getElem?_of_mem hb
    obtain ⟨b,-,-,-,⟨before,terminator₁,terminator₂,hbefore,ht₁,rfl,hfollows₂,-⟩⟩ := Rebuilt.of hrebuilt hplace
    obtain ⟨terminator₀,ht₀,hfollows⟩ := Threads.at hall hbefore ht₁
    obtain rfl := Option.some.inj ht
    exact hfollows₂.distinct (hfollows.distinct (hd before (List.mem_of_getElem? hbefore) terminator₀ ht₀))
  · obtain ⟨b,hmem,rfl,hpath'⟩ := pruned_path hf hall hrebuilt hlt hsearched.first hpath
    obtain ⟨block',hget',⟨before,terminator₁,terminator₂,hbefore,ht₁,rfl,hfollows₂,-⟩⟩ := Rebuilt.at hrebuilt (hlt b hmem) hmem
    obtain rfl := Option.some.inj (hget'.symm.trans hget)
    obtain ⟨terminator₀,ht₀,hfollows⟩ := Threads.at hall hbefore ht₁
    refine hdef b before rest D used hbefore hpath' ?_ hvalid
    cases rest with
    | cons instruction rest => exact hused
    | nil =>
      rw [nextUses,ht₀]
      exact hfollows.uses used (hfollows₂.uses used hused)

/-- A path stands in a block of the function, and the parameters are defined on all of it. -/
theorem path_parameters {b : ℕ} {rest : List Instruction} {D : Set ℤ} (h : Path f b rest D) :
    (∃ block done, f.blocks[b]? = some block ∧ block.instructions = done ++ rest) ∧ ∀ temp : ℤ, 0 ≤ temp → temp < f.entryTempCount → temp ∈ D := by
  induction h with
  | entry hb => exact ⟨⟨_,[],hb,rfl⟩,fun _ h0 hlt => ⟨h0,hlt⟩⟩
  | @instruction b instruction rest D _ ih =>
    obtain ⟨⟨block,done,hb,hsplit⟩,hall⟩ := ih
    exact ⟨⟨block,done ++ [instruction],hb,by rw [hsplit,List.append_assoc]; rfl⟩,fun temp h0 hlt => .inr (hall temp h0 hlt)⟩
  | edge _ _ _ _ _ hnext ih => exact ⟨⟨_,[],hnext,rfl⟩,fun temp h0 hlt => .inl (ih.2 temp h0 hlt)⟩

/-- Only the parameter is read. -/
theorem joined_defined : AlwaysDefined joined := by
  intro b block rest D used hb hpath hused hvalid
  obtain ⟨⟨block',done,hb',hsplit⟩,hall⟩ := path_parameters hpath
  obtain rfl := Option.some.inj (hb.symm.trans hb')
  have huses : ∀ block ∈ joined.blocks, (∀ instruction ∈ block.instructions, usesOf instruction ⊆ [0]) ∧ nextUses block [] ⊆ [0] := by decide
  obtain ⟨hinstructions,hlast⟩ := huses block (List.mem_of_getElem? hb)
  have hzero : used = 0 := by
    cases rest with
    | nil => exact List.mem_singleton.mp (hlast hused)
    | cons instruction rest =>
      exact List.mem_singleton.mp (hinstructions instruction (by rw [hsplit]; exact List.mem_append_right _ List.mem_cons_self) hused)
  rw [hzero]
  exact hall 0 (by decide) (by decide)

theorem run_definite_joined : ∃ g, run joined = some g ∧ checkDefiniteDefinition g = some [] := by
  have hd : ∀ block ∈ joined.blocks, ∀ terminator, block.terminator = some terminator → Distinct terminator := by
    intro block hb terminator ht
    simp only [joined,List.mem_cons,List.not_mem_nil,or_false] at hb
    rcases hb with rfl | rfl | rfl | rfl | rfl <;> cases ht <;> trivial
  obtain ⟨threaded,reached,blocks,hrun,-⟩ := run_parts (f := joined) (by decide) (by decide)
  exact ⟨{ joined with blocks },hrun,run_definite (by decide) hd joined_defined hrun⟩

end Ens.Eir.Pruning
