import Ens.Tasks.ScopeCancel
import Mathlib.Data.List.Nodup

/-! # The tickets, the failures and the tree of scopes

What a step keeps of the scopes: every task is removed once, the first failure stays, and the scopes that are
open stay with the tasks that opened them, when no task ends before these.
-/
set_option linter.all false
namespace Ens.Tasks.Scopes
variable {F : Family} {st st' : State} {t u v s o x w k : ℕ} {n m : Node} {a : Action} {todo : List Work}

/-! ### Tickets and failures -/

/-- Every task admitted is either running or was removed, once. A scope that has ended runs nothing, and the failure
it keeps is the first one. -/
structure Ledger (st : State) : Prop where
  tickets : ∀ s, (st.removed s ++ (st.running s).map Prod.fst).Perm (List.range (st.started s))
  ended : ∀ s, st.ended s → st.running s = []
  first : ∀ s, st.firstFailure s = (st.failures s).head?

theorem ledger_init : Ledger init := ⟨fun _ => .nil,nofun,fun _ => rfl⟩

theorem work_cases {i : ℕ} (h : step F st (.work i) = some st') : ∃ asked item rest st₁ n added,
    st.calls[i]? = some ⟨asked,item :: rest⟩ ∧ st.perform F item = some (st₁,n,added) ∧
      st' = { st₁ with calls := st₁.calls.set i ⟨n.or asked,added ++ rest⟩ } := by
  rw [step] at h
  split at h
  · rename_i asked item rest hc
    obtain ⟨⟨st₁,n,added⟩,hp,rfl⟩ := Option.map_eq_some_iff.mp h
    exact ⟨asked,item,rest,st₁,n,added,hc,hp,rfl⟩
  · cases h

structure Frame (st st' : State) : Prop where
  begun : st'.begun = st.begun
  built : st'.built = st.built
  running : st'.running = st.running
  started : st'.started = st.started
  removed : st'.removed = st.removed
  alive : st'.alive = st.alive
  blockedOn : st'.blockedOn = st.blockedOn
  stage : st'.stage = st.stage
  bodies : st'.bodies = st.bodies
  calls : st'.calls = st.calls

theorem perform_frame {item : Work} {st₁ : State} {asked : Option Node} {added : List Work}
    (h : st.perform F item = some (st₁,asked,added)) : Frame st st₁ := by
  have hsame : Frame st st := ⟨rfl,rfl,rfl,rfl,rfl,rfl,rfl,rfl,rfl,rfl⟩
  cases item with
  | cancel n => cases n <;> (cases h; exact ⟨rfl,rfl,rfl,rfl,rfl,rfl,rfl,rfl,rfl,rfl⟩)
  | empty s =>
    obtain ⟨-,h⟩ := Option.ite_none_right_eq_some.mp h
    cases h
    exact ⟨rfl,rfl,rfl,rfl,rfl,rfl,rfl,rfl,rfl,rfl⟩
  | _ =>
    cases h
    first | exact hsame | exact ⟨rfl,rfl,rfl,rfl,rfl,rfl,rfl,rfl,rfl,rfl⟩

theorem perform_ledger {item : Work} {st₁ : State} {asked : Option Node} {added : List Work} (h : Ledger st)
    (hp : st.perform F item = some (st₁,asked,added)) : Ledger st₁ := by
  have hframe := perform_frame hp
  refine ⟨fun s => ?_,?_,?_⟩
  · rw [hframe.removed,hframe.running,hframe.started]
    exact h.tickets s
  · rw [hframe.running]
    cases item with
    | cancel n => cases n <;> (cases hp; exact h.ended)
    | empty s =>
      obtain ⟨hempty,hp⟩ := Option.ite_none_right_eq_some.mp hp
      cases hp
      intro x hx
      by_cases hxs : x = s
      · rwa [hxs]
      · dsimp only at hx
        rw [put_ne hxs] at hx
        exact h.ended x hx
    | _ => cases hp; exact h.ended
  · cases item with
    | cancel n => cases n <;> (cases hp; exact h.first)
    | empty s =>
      obtain ⟨-,hp⟩ := Option.ite_none_right_eq_some.mp hp
      cases hp
      exact h.first
    | record s failure =>
      cases hp
      intro x
      dsimp only
      by_cases hxs : x = s
      · subst hxs
        rw [put_self,put_self,h.first]
        cases st.failures x <;> rfl
      · rw [put_ne hxs,put_ne hxs]
        exact h.first x
    | _ => cases hp; exact h.first

theorem filter_ticket {l : List (ℕ × ℕ)} (hn : (l.map Prod.fst).Nodup) (hm : (k,t) ∈ l) :
    (k :: (l.filter fun e => e.1 ≠ k).map Prod.fst).Perm (l.map Prod.fst) := by
  induction l with
  | nil => cases hm
  | cons e l ih =>
    rw [List.map_cons,List.nodup_cons] at hn
    rcases List.mem_cons.mp hm with rfl | hm
    · have hall : (l.filter fun e => e.1 ≠ k) = l :=
        List.filter_eq_self.mpr fun e he => by simpa using fun heq : e.1 = k => hn.1 (List.mem_map.mpr ⟨e,he,heq⟩)
      rw [List.filter_cons_of_neg (by simp),hall]
      exact .refl _
    · have hne : e.1 ≠ k := fun heq => hn.1 (List.mem_map.mpr ⟨(k,t),hm,heq.symm⟩)
      rw [List.filter_cons_of_pos (by simpa using hne)]
      exact (List.Perm.swap ..).trans ((ih hn.2 hm).cons _)

theorem Ledger.nodup (h : Ledger st) : ((st.running s).map Prod.fst).Nodup :=
  ((List.nodup_append.mp ((h.tickets s).nodup_iff.mpr List.nodup_range)).2).1

theorem step_ledger (st : State) (a : Action) (st' : State) (h : Ledger st) (hs : step F st a = some st') : Ledger st' := by
  cases a with
  | work i =>
    obtain ⟨asked,item,rest,st₁,n,added,-,hp,rfl⟩ := work_cases hs
    have h₁ := perform_ledger h hp
    exact ⟨h₁.tickets,h₁.ended,h₁.first⟩
  | admitTask s t =>
    obtain ⟨⟨-,hended,-⟩,hs⟩ := Option.ite_none_right_eq_some.mp hs
    cases hs
    refine ⟨fun x => ?_,fun x hx => ?_,h.first⟩
    · dsimp only
      by_cases hxs : x = s
      · subst hxs
        rw [put_self,put_self,List.map_append,← List.append_assoc,List.range_succ]
        exact (h.tickets x).append_right _
      · rw [put_ne hxs,put_ne hxs]
        exact h.tickets x
    · have hxs : x ≠ s := by
        rintro rfl
        rw [hended] at hx
        cases hx
      dsimp only
      rw [put_ne hxs]
      exact h.ended x hx
  | finish t ticket =>
    obtain ⟨⟨-,-,-,hmem⟩,hs⟩ := Option.ite_none_right_eq_some.mp hs
    cases hs
    refine ⟨fun x => ?_,fun x hx => ?_,h.first⟩
    · dsimp only
      by_cases hxs : x = F.scopeOf t
      · subst hxs
        rw [put_self,put_self,List.append_assoc]
        exact ((filter_ticket h.nodup hmem).append_left _).trans (h.tickets _)
      · rw [put_ne hxs,put_ne hxs]
        exact h.tickets x
    · dsimp only
      by_cases hxs : x = F.scopeOf t
      · subst hxs
        rw [h.ended _ hx] at hmem
        cases hmem
      · rw [put_ne hxs]
        exact h.ended x hx
  | look t =>
    rw [step] at hs
    split at hs <;> first | cases hs; exact ⟨h.tickets,h.ended,h.first⟩ | cases hs
  | stop t =>
    rw [step] at hs
    split at hs <;> first | cases hs; exact ⟨h.tickets,h.ended,h.first⟩ | cases hs
  | cancel n =>
    cases n with
    | scope s =>
      obtain ⟨-,hs⟩ := Option.ite_none_right_eq_some.mp hs
      cases hs
      exact ⟨h.tickets,h.ended,h.first⟩
    | task t =>
      cases hs
      exact ⟨h.tickets,h.ended,h.first⟩
  | _ =>
    obtain ⟨-,hs⟩ := Option.ite_none_right_eq_some.mp hs
    cases hs
    exact ⟨h.tickets,h.ended,h.first⟩

/-! ### The tree -/

def keepsScopes (st : State) : Action → Bool
  | .finish t _ => (st.scopes t).all st.ended
  | _ => true

theorem tree_init : Tree F init := ⟨nofun,nofun,nofun,nofun,nofun,nofun,nofun⟩

structure Formed (st : State) (todo : List Work) : Prop where
  cancel : ∀ s, .cancel (.scope s) ∈ todo → st.built s
  expire : ∀ s, .expire s ∈ todo → st.built s
  disown : ∀ s, .disown s ∈ todo → st.ended s

theorem perform_tree {item : Work} {st₁ : State} {asked : Option Node} {added : List Work} (h : Tree F st)
    (hd : ∀ s, item = .disown s → st.ended s) (hp : st.perform F item = some (st₁,asked,added)) : Tree F st₁ := by
  have hframe := perform_frame hp
  have hsame (hs : st₁.scopes = st.scopes) (he : st₁.ended = st.ended) : Tree F st₁ := by
    obtain ⟨hbegun,hbuilt,hrunning,-,-,halive,-⟩ := hframe
    refine ⟨?_,?_,?_,?_,?_,?_,?_⟩
    · rw [hbegun]; exact h.apart
    · rw [hbegun,hbuilt]; exact h.begun
    · rw [halive,hrunning]; exact h.alive
    · rw [halive,hrunning,hbuilt,he]; exact h.running
    · rw [hrunning]; exact h.once
    · rw [hbuilt,he,hs]; exact h.adopted
    · rw [hs,he,hrunning]; exact h.keeps
  cases item with
  | cancel n => cases n <;> (cases hp; exact hsame rfl rfl)
  | empty s =>
    obtain ⟨hempty,hp⟩ := Option.ite_none_right_eq_some.mp hp
    cases hp
    have hopen {x : ℕ} (hend : put st.ended s true x = false) : st.ended x = false := by
      by_cases hxs : x = s
      · rw [hxs,put_self] at hend
        cases hend
      · rwa [put_ne hxs] at hend
    refine ⟨h.apart,h.begun,h.alive,fun x e he => ?_,h.once,fun x p hx hend ho => h.adopted x p hx (hopen hend) ho,
      fun x p hx hend => h.keeps x p hx (hopen hend)⟩
    obtain ⟨hscope,halive,hbuilt,hended⟩ := h.running x e he
    refine ⟨hscope,halive,hbuilt,?_⟩
    have hxs : x ≠ s := by
      rintro rfl
      rw [hempty] at he
      cases he
    dsimp only
    rwa [put_ne hxs]
  | disown s =>
    have hended := hd s rfl
    cases hp
    cases ho : F.owner s with
    | none => exact ⟨h.apart,h.begun,h.alive,h.running,h.once,h.adopted,h.keeps⟩
    | some q =>
      refine ⟨h.apart,h.begun,h.alive,h.running,h.once,fun x p hx hend hp => ?_,fun x p hx hend => ?_⟩
      · have hxs : x ≠ s := by
          rintro rfl
          rw [hended] at hend
          cases hend
        have hmem := h.adopted x p hx hend hp
        dsimp only
        by_cases hpq : p = q
        · rw [hpq,put_self]
          exact (List.mem_erase_of_ne hxs).mpr (hpq ▸ hmem)
        · rwa [put_ne hpq]
      · dsimp only at hx
        by_cases hpq : p = q
        · rw [hpq,put_self] at hx
          rw [hpq]
          exact h.keeps x q (List.mem_of_mem_erase hx) hend
        · rw [put_ne hpq] at hx
          exact h.keeps x p hx hend
  | _ => cases hp; exact hsame rfl rfl

theorem ownerAtWork_some (h : st.ownerAtWork F s = true) (ho : F.owner s = some t) : st.alive t = true ∧ st.stage t = .idle := by
  rw [State.ownerAtWork,ho] at h
  simpa using h

theorem admit_tree (h : Tree F st) (hb : st.built s = true) (he : st.ended s = false) (hs : F.scopeOf t = s) (ha : st.alive t = false)
    {started : ℕ → ℕ} : Tree F { st with
      running := put st.running s (st.running s ++ [(k,t)]), started := started, alive := put st.alive t true } := by
  have hmem {x : ℕ} {e : ℕ × ℕ} (hx : e ∈ st.running x) : e ∈ put st.running s (st.running s ++ [(k,t)]) x := by
    by_cases hxs : x = s
    · subst hxs
      rw [put_self]
      exact List.mem_append_left _ hx
    · rwa [put_ne hxs]
  have hof {x : ℕ} {e : ℕ × ℕ} (hx : e ∈ put st.running s (st.running s ++ [(k,t)]) x) : e ∈ st.running x ∨ x = s ∧ e = (k,t) := by
    by_cases hxs : x = s
    · subst hxs
      rw [put_self] at hx
      exact (List.mem_append.mp hx).imp id fun hx => ⟨rfl,List.mem_singleton.mp hx⟩
    · rw [put_ne hxs] at hx
      exact .inl hx
  have hno {x l : ℕ} (hl : (l,t) ∈ st.running x) : False := by
    have := (h.running x _ hl).2.1
    rw [ha] at this
    cases this
  refine ⟨h.apart,h.begun,fun u hu => ?_,fun x e hx => ?_,fun x l l' u hl hl' => ?_,h.adopted,fun x p hx hend => ?_⟩
  · dsimp only at hu ⊢
    by_cases hut : u = t
    · subst hut
      rw [hs,put_self]
      exact .inl ⟨k,List.mem_append_right _ (List.mem_singleton_self _)⟩
    · rw [put_ne hut] at hu
      exact (h.alive u hu).imp (fun ⟨l,hl⟩ => ⟨l,hmem hl⟩) id
  · rcases hof hx with hx | ⟨rfl,rfl⟩
    · obtain ⟨h₁,h₂,h₃,h₄⟩ := h.running x e hx
      refine ⟨h₁,?_,h₃,h₄⟩
      dsimp only
      by_cases heq : e.2 = t
      · rw [heq,put_self]
      · rwa [put_ne heq]
    · exact ⟨hs,put_self ..,hb,he⟩
  · rcases hof hl with hl | ⟨-,heq⟩
    · rcases hof hl' with hl' | ⟨-,heq'⟩
      · exact h.once x l l' u hl hl'
      · cases heq'
        exact (hno hl).elim
    · rcases hof hl' with hl' | ⟨-,heq'⟩
      · cases heq
        exact (hno hl').elim
      · cases heq
        cases heq'
        rfl
  · exact (h.keeps x p hx hend).imp (fun ⟨l,hl⟩ => ⟨l,hmem hl⟩) id

theorem finish_tree (h : Tree F st) (hl : Ledger st) (hk : ∀ s ∈ st.scopes t, st.ended s) (hm : (k,t) ∈ st.running (F.scopeOf t))
    {removed : ℕ → List ℕ} : Tree F { st with
      running := put st.running (F.scopeOf t) ((st.running (F.scopeOf t)).filter fun e => e.1 ≠ k), removed := removed,
      alive := put st.alive t false } := by
  have hof {x : ℕ} {e : ℕ × ℕ} (hx : e ∈ put st.running (F.scopeOf t) ((st.running (F.scopeOf t)).filter fun e => e.1 ≠ k) x) :
      e ∈ st.running x ∧ (x = F.scopeOf t → e.1 ≠ k) := by
    by_cases hxs : x = F.scopeOf t
    · subst hxs
      rw [put_self] at hx
      obtain ⟨hx,hne⟩ := List.mem_filter.mp hx
      exact ⟨hx,fun _ => by simpa using hne⟩
    · rw [put_ne hxs] at hx
      exact ⟨hx,fun heq => absurd heq hxs⟩
  -- a ticket stands for one task, so only the entry of the task that ends goes
  have hmem {x l u : ℕ} (hx : (l,u) ∈ st.running x) (hu : u ≠ t) :
      (l,u) ∈ put st.running (F.scopeOf t) ((st.running (F.scopeOf t)).filter fun e => e.1 ≠ k) x := by
    by_cases hxs : x = F.scopeOf t
    · subst hxs
      rw [put_self]
      refine List.mem_filter.mpr ⟨hx,?_⟩
      have hne : l ≠ k := by
        rintro rfl
        exact hu (congrArg Prod.snd (List.inj_on_of_nodup_map hl.nodup hx hm rfl))
      simpa using hne
    · rwa [put_ne hxs]
  refine ⟨h.apart,h.begun,fun u hu => ?_,fun x e hx => ?_,fun x l l' u hl hl' => h.once x l l' u (hof hl).1 (hof hl').1,h.adopted,
    fun x p hx hend => ?_⟩
  · dsimp only at hu ⊢
    by_cases hut : u = t
    · rw [hut,put_self] at hu
      cases hu
    · rw [put_ne hut] at hu
      exact (h.alive u hu).imp (fun ⟨l,hl⟩ => ⟨l,hmem hl hut⟩) id
  · obtain ⟨hold,hne⟩ := hof hx
    obtain ⟨h₁,h₂,h₃,h₄⟩ := h.running x e hold
    refine ⟨h₁,?_,h₃,h₄⟩
    have het : e.2 ≠ t := by
      rintro rfl
      exact hne h₁.symm (h.once _ e.1 k e.2 (h₁ ▸ hold) hm)
    dsimp only
    rwa [put_ne het]
  · have hpt : p ≠ t := by
      rintro rfl
      have hended := hk x hx
      rw [hend] at hended
      cases hended
    exact (h.keeps x p hx hend).imp (fun ⟨l,hl⟩ => ⟨l,hmem hl hpt⟩) id

theorem adopt_tree (h : Tree F st) (hb : st.begun s = true) (hw : st.ownerAtWork F s = true) : Tree F { st with
    built := put st.built s true
    scopes := match F.owner s with
      | some t => put st.scopes t (st.scopes t ++ [s])
      | none => st.scopes } := by
  have hbuilt {x : ℕ} (hx : put st.built s true x = true) : x = s ∨ st.built x = true := by
    by_cases hxs : x = s
    · exact .inl hxs
    · rw [put_ne hxs] at hx
      exact .inr hx
  have hbegun : ∀ x, put st.built s true x = true → st.begun x := fun x hx => by
    rcases hbuilt hx with rfl | hx
    · exact hb
    · exact h.begun x hx
  have hrunning : ∀ x e, e ∈ st.running x → F.scopeOf e.2 = x ∧ st.alive e.2 ∧ put st.built s true x ∧ st.ended x = false := by
    intro x e he
    obtain ⟨h₁,h₂,h₃,h₄⟩ := h.running x e he
    refine ⟨h₁,h₂,?_,h₄⟩
    unfold put
    split
    · rfl
    · exact h₃
  cases ho : F.owner s with
  | none =>
    refine ⟨h.apart,hbegun,h.alive,hrunning,h.once,fun x p hx hend hp => ?_,h.keeps⟩
    rcases hbuilt hx with rfl | hx
    · rw [ho] at hp
      cases hp
    · exact h.adopted x p hx hend hp
  | some q =>
    refine ⟨h.apart,hbegun,h.alive,hrunning,h.once,fun x p hx hend hp => ?_,fun x p hx hend => ?_⟩
    · dsimp only
      rcases hbuilt hx with rfl | hx
      · cases ho.symm.trans hp
        rw [put_self]
        exact List.mem_append_right _ (List.mem_singleton_self x)
      · have hmem := h.adopted x p hx hend hp
        by_cases hpq : p = q
        · rw [hpq,put_self]
          exact List.mem_append_left _ (hpq ▸ hmem)
        · rwa [put_ne hpq]
    · dsimp only at hx
      by_cases hpq : p = q
      · rw [hpq]
        exact h.alive q (ownerAtWork_some hw ho).1
      · rw [put_ne hpq] at hx
        exact h.keeps x p hx hend

/-- A thread that starts or stops running bodies is in no scope's list. -/
theorem thread_tree (h : Tree F st) (ht : F.apart (F.scopeOf t) = true) {b : Bool} : Tree F { st with alive := put st.alive t b } := by
  refine ⟨h.apart,h.begun,fun u hu => ?_,fun x e he => ?_,h.once,h.adopted,h.keeps⟩
  · by_cases hut : u = t
    · rw [hut]
      exact .inr ht
    · dsimp only at hu
      rw [put_ne hut] at hu
      exact h.alive u hu
  · obtain ⟨h₁,h₂,h₃,h₄⟩ := h.running x e he
    have hne : e.2 ≠ t := by
      rintro rfl
      rw [h₁,h.apart x (h.begun x h₃)] at ht
      cases ht
    refine ⟨h₁,?_,h₃,h₄⟩
    dsimp only
    rwa [put_ne hne]

theorem step_tree (h : Tree F st) (hl : Ledger st) (hf : ∀ c ∈ st.calls, Formed st c.todo) (hk : keepsScopes st a = true)
    (hs : step F st a = some st') : Tree F st' := by
  have hsame {st' : State} (h₁ : st'.begun = st.begun) (h₂ : st'.built = st.built) (h₃ : st'.running = st.running)
      (h₄ : st'.alive = st.alive) (h₅ : st'.scopes = st.scopes) (h₆ : st'.ended = st.ended) : Tree F st' := by
    refine ⟨?_,?_,?_,?_,?_,?_,?_⟩
    · rw [h₁]; exact h.apart
    · rw [h₁,h₂]; exact h.begun
    · rw [h₄,h₃]; exact h.alive
    · rw [h₄,h₃,h₂,h₆]; exact h.running
    · rw [h₃]; exact h.once
    · rw [h₂,h₆,h₅]; exact h.adopted
    · rw [h₅,h₆,h₃]; exact h.keeps
  cases a with
  | work i =>
    obtain ⟨asked,item,rest,st₁,n,added,hc,hp,rfl⟩ := work_cases hs
    have h₁ := perform_tree h (fun s hitem => (hf _ (List.mem_of_getElem? hc)).disown s (by rw [hitem]; exact List.mem_cons_self ..)) hp
    exact ⟨h₁.apart,h₁.begun,h₁.alive,h₁.running,h₁.once,h₁.adopted,h₁.keeps⟩
  | construct s =>
    obtain ⟨⟨-,hapart,-⟩,hs⟩ := Option.ite_none_right_eq_some.mp hs
    cases hs
    refine ⟨fun x hx => ?_,fun x hx => ?_,h.alive,h.running,h.once,h.adopted,h.keeps⟩
    · by_cases hxs : x = s
      · rwa [hxs]
      · dsimp only at hx
        rw [put_ne hxs] at hx
        exact h.apart x hx
    · dsimp only [put]
      split
      · rfl
      · exact h.begun x hx
  | adopt s =>
    obtain ⟨⟨hbegun,-,hwork⟩,hs⟩ := Option.ite_none_right_eq_some.mp hs
    cases hs
    exact adopt_tree h hbegun hwork
  | adoptThread t =>
    obtain ⟨⟨-,hapart,-⟩,hs⟩ := Option.ite_none_right_eq_some.mp hs
    cases hs
    exact thread_tree h hapart
  | leaveThread t =>
    obtain ⟨⟨-,-,hapart,-⟩,hs⟩ := Option.ite_none_right_eq_some.mp hs
    cases hs
    exact thread_tree h hapart
  | admitTask s t =>
    obtain ⟨⟨hb,he,hscope,ha,-⟩,hs⟩ := Option.ite_none_right_eq_some.mp hs
    cases hs
    exact admit_tree h hb he hscope ha
  | finish t ticket =>
    obtain ⟨⟨-,-,-,hmem⟩,hs⟩ := Option.ite_none_right_eq_some.mp hs
    cases hs
    exact finish_tree h hl (List.all_eq_true.mp hk) hmem
  | look t =>
    rw [step] at hs
    split at hs <;> first | cases hs; exact hsame rfl rfl rfl rfl rfl rfl | cases hs
  | stop t =>
    rw [step] at hs
    split at hs <;> first | cases hs; exact hsame rfl rfl rfl rfl rfl rfl | cases hs
  | cancel n =>
    cases n with
    | scope s =>
      obtain ⟨-,hs⟩ := Option.ite_none_right_eq_some.mp hs
      cases hs
      exact hsame rfl rfl rfl rfl rfl rfl
    | task t =>
      cases hs
      exact hsame rfl rfl rfl rfl rfl rfl
  | _ =>
    obtain ⟨-,hs⟩ := Option.ite_none_right_eq_some.mp hs
    cases hs
    exact hsame rfl rfl rfl rfl rfl rfl

end Ens.Tasks.Scopes
