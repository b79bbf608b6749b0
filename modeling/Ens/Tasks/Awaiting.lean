import Ens.Logic.Exec
import Mathlib.Data.Finset.Max
import Mathlib.Data.List.Chain
import Mathlib.Tactic.Linarith

/-! # Tasks that wait for each other

A task that starts to wait writes whom it waits for, and then follows what others wait for, one read at a time, to find itself. It refuses to
wait when it does. Nothing keeps the others from starting and stopping meanwhile.
-/
set_option linter.all false
namespace Ens.Tasks.Awaiting
open Exec

def awaitChain : ℕ := 10000

/-- What a task is doing: something else, following a chain from itself to the next task of it, or waiting. -/
inductive Phase
  | running
  | walking (chain : List ℕ) (next : Option ℕ)
  | waiting
  deriving DecidableEq

structure State where
  awaiting : ℕ → Option ℕ
  phase : ℕ → Phase
  refused : Option (ℕ × List ℕ)

def start : State := ⟨fun _ => none,fun _ => .running,none⟩

/-- A task writes its target, reads the next task of its chain, or stops waiting: for an outcome or because it is cancelled. -/
inductive Action
  | startAwaiting (task target : ℕ)
  | follow (task : ℕ)
  | stopAwaiting (task : ℕ)
  deriving DecidableEq

def put {A : Type} (xs : ℕ → A) (i : ℕ) (x : A) : ℕ → A := fun k => if k = i then x else xs k

def State.followed (s : State) (task : ℕ) (chain : List ℕ) (next : Option ℕ) : State :=
  match next with
  | none => { s with phase := put s.phase task .waiting }
  | some next =>
    if awaitChain < chain.length then { s with phase := put s.phase task .waiting }
    else if next = task then { s with refused := some (task,chain) }
    else { s with phase := put s.phase task (.walking (chain ++ [next]) (s.awaiting next)) }

def step (s : State) : Action → Option State
  | .startAwaiting task target =>
    if s.refused = none ∧ s.phase task = .running then
      some { s with awaiting := put s.awaiting task (some target), phase := put s.phase task (.walking [task] (some target)) }
    else none
  | .follow task =>
    if s.refused = none then
      match s.phase task with
      | .walking chain next => some (s.followed task chain next)
      | _ => none
    else none
  | .stopAwaiting task =>
    if s.refused = none ∧ s.phase task = .waiting then
      some { s with awaiting := put s.awaiting task none, phase := put s.phase task .running }
    else none

/-- Each task of a list waits for the next and the last for the first. -/
def Circle (awaiting : ℕ → Option ℕ) (tasks : List ℕ) : Prop :=
  ∃ first rest, tasks = first :: rest ∧ (tasks ++ [first]).IsChain fun a b => awaiting a = some b

def Walking (s : State) (task : ℕ) : Prop := ∃ chain next, s.phase task = .walking chain next

/-- No circle of tasks is in place while none of them is still looking for it and none refused. -/
def Noticed (s : State) : Prop := ∀ tasks : List ℕ, tasks.Nodup → tasks.length ≤ awaitChain → Circle s.awaiting tasks →
  (∃ task ∈ tasks, Walking s task) ∨ ∃ task ∈ tasks, ∃ chain, s.refused = some (task,chain)

/-- A refusal names a circle that was in place at some moment since its task started to wait. -/
def InPlace (actions : List Action) : Prop := ∀ pre, pre <+: actions → ∀ s, exec step start pre = some s →
  ∀ task chain, s.refused = some (task,chain) → ∃ moment t, moment <+: pre ∧ exec step start moment = some t ∧
    (∀ mid u, moment <+: mid → mid <+: pre → exec step start mid = some u → Walking u task) ∧ Circle t.awaiting chain

/-- No task stops waiting while another follows a chain through it. -/
def Undisturbed (s : State) (a : Action) : Prop := ∀ stopped, a = .stopAwaiting stopped → ∀ task chain next,
  s.phase task = .walking chain next → stopped ∉ chain

variable {s t : State} {a : Action} {task other : ℕ} {chain path : List ℕ} {next : Option ℕ}

theorem put_same {A : Type} {xs : ℕ → A} {x : A} : put xs task x task = x := if_pos rfl

theorem put_other {A : Type} {xs : ℕ → A} {x : A} (h : other ≠ task) : put xs task x other = xs other := if_neg h

/-! ### What a step does -/

theorem step_cases (h : step s a = some t) : s.refused = none ∧
    ((∃ task target, a = .startAwaiting task target ∧ s.phase task = .running ∧
        t = { s with awaiting := put s.awaiting task (some target), phase := put s.phase task (.walking [task] (some target)) })
      ∨ (∃ task chain next, a = .follow task ∧ s.phase task = .walking chain next ∧ t = s.followed task chain next)
      ∨ ∃ task, a = .stopAwaiting task ∧ s.phase task = .waiting ∧
        t = { s with awaiting := put s.awaiting task none, phase := put s.phase task .running }) := by
  cases a with
  | startAwaiting task target =>
    rw [step] at h
    split_ifs at h with hc
    cases h
    exact ⟨hc.1,Or.inl ⟨task,target,rfl,hc.2,rfl⟩⟩
  | follow task =>
    rw [step] at h
    split_ifs at h with hc
    cases hp : s.phase task with
    | running | waiting =>
      rw [hp] at h
      cases h
    | walking chain next =>
      rw [hp] at h
      cases h
      exact ⟨hc,Or.inr (Or.inl ⟨task,chain,next,rfl,hp,rfl⟩)⟩
  | stopAwaiting task =>
    rw [step] at h
    split_ifs at h with hc
    cases h
    exact ⟨hc.1,Or.inr (Or.inr ⟨task,rfl,hc.2,rfl⟩)⟩

theorem followed_awaiting (s : State) (task : ℕ) (chain : List ℕ) (next : Option ℕ) : (s.followed task chain next).awaiting = s.awaiting := by
  cases next with
  | none => rfl
  | some x =>
    rw [State.followed]
    split_ifs <;> rfl

theorem followed_other (h : other ≠ task) : (s.followed task chain next).phase other = s.phase other := by
  cases next with
  | none => exact put_other h
  | some x =>
    rw [State.followed]
    split_ifs
    · exact put_other h
    · rfl
    · exact put_other h

theorem followed_cases (hp : s.phase task = .walking chain next) :
    ((s.followed task chain next).refused = s.refused ∧ (s.followed task chain next).phase task = .waiting ∧
        ∀ x, next = some x → awaitChain < chain.length)
      ∨ (next = some task ∧ (s.followed task chain next).refused = some (task,chain) ∧
        (s.followed task chain next).phase task = .walking chain next)
      ∨ ∃ x, next = some x ∧ x ≠ task ∧ (s.followed task chain next).refused = s.refused ∧
        (s.followed task chain next).phase task = .walking (chain ++ [x]) (s.awaiting x) := by
  cases next with
  | none => exact Or.inl ⟨rfl,put_same,fun x hx => by cases hx⟩
  | some x =>
    rw [State.followed]
    split_ifs with hlimit hself
    · exact Or.inl ⟨rfl,put_same,fun _ _ => hlimit⟩
    · exact Or.inr (Or.inl ⟨congrArg some hself,rfl,hp⟩)
    · exact Or.inr (Or.inr ⟨x,rfl,hself,rfl,put_same⟩)

/-! ### Links older than a call -/

/-- A link that a task of a chain has had for longer than the task at its head has its own. -/
def Old (s : State) (stamp : ℕ → ℕ) (task a b : ℕ) : Prop := s.awaiting a = some b ∧ (a = task ∨ stamp a < stamp task)

/-- A chain of links that have been in place since a task started to wait. -/
def OldPath (s : State) (stamp : ℕ → ℕ) (task : ℕ) (path : List ℕ) : Prop := path.head? = some task ∧ path.IsChain (Old s stamp task)

/-- What a task has followed agrees with every such chain, as far as both go. -/
def Agrees (chain : List ℕ) (next : Option ℕ) (path : List ℕ) : Prop :=
  match next with
  | none => path <+: chain
  | some x => path <+: chain ++ [x] ∨ chain ++ [x] <+: path

/-- The tasks that wait can be put in the order they started to, and what they follow is all there was when they did. -/
structure Inv (stamp : ℕ → ℕ) (clock : ℕ) (s : State) : Prop where
  fresh : ∀ u, s.awaiting u ≠ none → stamp u < clock
  distinct : ∀ u v, s.awaiting u ≠ none → s.awaiting v ≠ none → stamp u = stamp v → u = v
  running : ∀ u, s.phase u = .running ↔ s.awaiting u = none
  walking : ∀ u chain next, s.phase u = .walking chain next →
    (∃ rest, chain = u :: rest ∧ u ∉ rest) ∧ ∀ path, OldPath s stamp u path → Agrees chain next path
  waiting : ∀ u, s.phase u = .waiting → ∀ path, path ≠ [] → path.length ≤ awaitChain → ¬OldPath s stamp u (path ++ [u])
  refusal : ∀ u chain, s.refused = some (u,chain) → ∃ next, s.phase u = .walking chain next

variable {stamp stamp' : ℕ → ℕ} {clock : ℕ}

theorem OldPath.mono (h : OldPath s stamp task path) (hold : ∀ a b, Old s stamp task a b → Old t stamp' task a b) :
    OldPath t stamp' task path := ⟨h.1,h.2.imp fun a b hab => hold a b hab⟩

theorem inv_start : Inv (fun _ => 0) 0 start where
  fresh _ h := absurd rfl h
  distinct _ _ h := absurd rfl h
  running _ := iff_of_true rfl rfl
  walking _ _ _ h := by cases h
  waiting _ h := by cases h
  refusal _ _ h := by cases h

theorem Inv.startAwaiting {target : ℕ} (h : Inv stamp clock s) (hrefused : s.refused = none) (hrun : s.phase task = .running) :
    Inv (put stamp task clock) (clock + 1)
      { s with awaiting := put s.awaiting task (some target), phase := put s.phase task (.walking [task] (some target)) } := by
  have hnone := (h.running task).mp hrun
  have hother : ∀ u, put s.awaiting task (some target) u ≠ none → u ≠ task → s.awaiting u ≠ none := fun u hu hne => by
    rwa [put_other hne] at hu
  have hold : ∀ u, u ≠ task → s.awaiting u ≠ none → ∀ a b,
      Old { s with awaiting := put s.awaiting task (some target), phase := put s.phase task (.walking [task] (some target)) }
        (put stamp task clock) u a b → Old s stamp u a b := by
    rintro u hne hu a b ⟨hab,hstamp⟩
    rw [put_other hne] at hstamp
    by_cases ha : a = task
    · subst ha
      rw [put_same] at hstamp
      have hlt := h.fresh u hu
      exact absurd hstamp (by rintro (heq | hlt'); exact hne heq.symm; omega)
    · rw [put_other ha] at hstamp
      exact ⟨(put_other ha).symm.trans hab,hstamp⟩
  refine {
    fresh := fun u hu => ?_
    distinct := fun u v hu hv hsame => ?_
    running := fun u => ?_
    walking := fun u chain next hp => ?_
    waiting := fun u hp path hne hlength hpath => ?_
    refusal := fun u chain hr => ?_ }
  · by_cases hut : u = task
    · rw [hut,put_same]
      exact Nat.lt_succ_self _
    · rw [put_other hut]
      exact Nat.lt_succ_of_lt (h.fresh u (hother u hu hut))
  · by_cases hut : u = task
    · by_cases hvt : v = task
      · exact hut.trans hvt.symm
      · rw [hut,put_same,put_other hvt] at hsame
        exact absurd (h.fresh v (hother v hv hvt)) (by omega)
    · by_cases hvt : v = task
      · rw [hvt,put_same,put_other hut] at hsame
        exact absurd (h.fresh u (hother u hu hut)) (by omega)
      · rw [put_other hut,put_other hvt] at hsame
        exact h.distinct u v (hother u hu hut) (hother v hv hvt) hsame
  · by_cases hut : u = task
    · rw [hut]
      exact iff_of_false (by simp [put]) (by simp [put])
    · have hphase : put s.phase task (.walking [task] (some target)) u = s.phase u := put_other hut
      have hlink : put s.awaiting task (some target) u = s.awaiting u := put_other hut
      dsimp only
      rw [hphase,hlink]
      exact h.running u
  · by_cases hut : u = task
    · subst hut
      have hphase : put s.phase u (.walking [u] (some target)) u = .walking [u] (some target) := put_same
      cases hphase.symm.trans hp
      refine ⟨⟨[],rfl,List.not_mem_nil⟩,fun path hpath => ?_⟩
      obtain ⟨hhead,hchain⟩ := hpath
      cases path with
      | nil => cases hhead
      | cons x path =>
        cases hhead
        cases path with
        | nil => exact Or.inl ⟨[target],rfl⟩
        | cons y path =>
          have hlink := (List.isChain_cons_cons.mp hchain).1.1
          have htarget : put s.awaiting u (some target) u = some target := put_same
          cases htarget.symm.trans hlink
          exact Or.inr ⟨path,rfl⟩
    · have hphase : put s.phase task (.walking [task] (some target)) u = s.phase u := put_other hut
      have hp := hphase.symm.trans hp
      have hu : s.awaiting u ≠ none := fun hn => by
        rw [(h.running u).mpr hn] at hp
        cases hp
      exact ⟨(h.walking u chain next hp).1,fun path hpath => (h.walking u chain next hp).2 path (hpath.mono (hold u hut hu))⟩
  · have hut : u ≠ task := fun heq => by
      subst heq
      have hphase : put s.phase u (.walking [u] (some target)) u = .walking [u] (some target) := put_same
      cases hphase.symm.trans hp
    have hphase : put s.phase task (.walking [task] (some target)) u = s.phase u := put_other hut
    have hp := hphase.symm.trans hp
    have hu : s.awaiting u ≠ none := fun hn => by
      rw [(h.running u).mpr hn] at hp
      cases hp
    exact h.waiting u hp path hne hlength (hpath.mono (hold u hut hu))
  · exact absurd (hrefused.symm.trans hr) (by simp)

theorem Inv.stopAwaiting (h : Inv stamp clock s) (hrefused : s.refused = none) :
    Inv stamp clock { s with awaiting := put s.awaiting task none, phase := put s.phase task .running } := by
  have hold : ∀ u a b, Old { s with awaiting := put s.awaiting task none, phase := put s.phase task .running } stamp u a b →
      Old s stamp u a b := by
    rintro u a b ⟨hab,hstamp⟩
    have ha : a ≠ task := fun heq => by
      rw [heq] at hab
      cases put_same.symm.trans hab
    exact ⟨(put_other ha).symm.trans hab,hstamp⟩
  have hother : ∀ u, put s.awaiting task none u ≠ none → s.awaiting u ≠ none := fun u hu => by
    by_cases hut : u = task
    · rw [hut,put_same] at hu
      exact absurd rfl hu
    · rwa [put_other hut] at hu
  have hphase : ∀ u, put s.phase task .running u ≠ .running → s.phase u = put s.phase task .running u := fun u hu => by
    by_cases hut : u = task
    · rw [hut,put_same] at hu
      exact absurd rfl hu
    · exact (put_other hut).symm
  refine {
    fresh := fun u hu => h.fresh u (hother u hu)
    distinct := fun u v hu hv hsame => h.distinct u v (hother u hu) (hother v hv) hsame
    running := fun u => ?_
    walking := fun u chain next hp => ?_
    waiting := fun u hp path hne hlength hpath => ?_
    refusal := fun u chain hr => absurd (hrefused.symm.trans hr) (by simp) }
  · by_cases hut : u = task
    · rw [hut]
      exact iff_of_true put_same put_same
    · have hsame : put s.phase task .running u = s.phase u := put_other hut
      have hlink : put s.awaiting task none u = s.awaiting u := put_other hut
      dsimp only
      rw [hsame,hlink]
      exact h.running u
  · have hbefore := (hphase u fun hr => by cases hr.symm.trans hp).trans hp
    exact ⟨(h.walking u chain next hbefore).1,fun path hpath => (h.walking u chain next hbefore).2 path (hpath.mono (hold u))⟩
  · have hbefore := (hphase u fun hr => by cases hr.symm.trans hp).trans hp
    exact h.waiting u hbefore path hne hlength (hpath.mono (hold u))

/-- A chain that agrees with one of old links still does with one task more, read from the last. -/
theorem Agrees.further {x : ℕ} (h : Agrees chain (some x) path) (hpath : path.IsChain (Old s stamp task)) :
    Agrees (chain ++ [x]) (s.awaiting x) path := by
  rcases h with h | ⟨rest,rfl⟩
  · cases s.awaiting x with
    | none => exact h
    | some y => exact Or.inl (h.trans (List.prefix_append _ _))
  · cases rest with
    | nil =>
      rw [List.append_nil]
      cases s.awaiting x with
      | none => exact List.prefix_rfl
      | some y => exact Or.inl (List.prefix_append _ _)
    | cons y rest =>
      rw [List.append_assoc,List.singleton_append] at hpath
      have hlink := (List.isChain_append_cons_cons.mp hpath).2.1.1
      rw [hlink]
      refine Or.inr ⟨rest,?_⟩
      rw [List.append_assoc]
      rfl

theorem Agrees.no_circle {rest : List ℕ} (hchain : chain = task :: rest) (hself : task ∉ rest) (hne : path ≠ [])
    (hlength : path.length ≤ awaitChain) (hlimit : ∀ x, next = some x → awaitChain < chain.length)
    (hhead : (path ++ [task]).head? = some task) (h : Agrees chain next (path ++ [task])) : False := by
  have hinside : path ++ [task] <+: chain := by
    cases next with
    | none => exact h
    | some x =>
      have hlong := hlimit x rfl
      have hshort : (path ++ [task]).length ≤ chain.length := by
        rw [List.length_append,List.length_singleton]
        omega
      rcases h with h | h
      · exact List.prefix_of_prefix_length_le h (List.prefix_append _ _) hshort
      · have hle := h.length_le
        rw [List.length_append,List.length_singleton] at hle
        omega
  cases path with
  | nil => exact hne rfl
  | cons first path =>
    rw [hchain] at hinside
    obtain ⟨-,hinner⟩ := List.cons_prefix_cons.mp hinside
    exact hself (hinner.subset (List.mem_append_right _ List.mem_cons_self))

theorem Inv.followed (h : Inv stamp clock s) (hrefused : s.refused = none) (hp : s.phase task = .walking chain next) :
    Inv stamp clock (s.followed task chain next) := by
  have hlinks := followed_awaiting s task chain next
  have hold : ∀ u a b, Old (s.followed task chain next) stamp u a b → Old s stamp u a b := by
    rintro u a b ⟨hab,hstamp⟩
    exact ⟨hlinks ▸ hab,hstamp⟩
  have hcases := followed_cases hp
  obtain ⟨⟨rest,hchain,hself⟩,hagrees⟩ := h.walking task chain next hp
  have hset : s.awaiting task ≠ none := fun hn => by
    rw [(h.running task).mpr hn] at hp
    cases hp
  refine {
    fresh := fun u hu => h.fresh u (hlinks ▸ hu)
    distinct := fun u v hu hv hsame => h.distinct u v (hlinks ▸ hu) (hlinks ▸ hv) hsame
    running := fun u => ?_
    walking := fun u chain' next' hu => ?_
    waiting := fun u hu path hne hlength hpath => ?_
    refusal := fun u chain' hr => ?_ }
  · rw [hlinks]
    by_cases hut : u = task
    · rw [hut]
      refine iff_of_false (fun hr => ?_) hset
      rcases hcases with ⟨-,hw,-⟩ | ⟨-,-,hw⟩ | ⟨x,-,-,-,hw⟩ <;> cases hw.symm.trans hr
    · rw [followed_other hut]
      exact h.running u
  · by_cases hut : u = task
    · subst hut
      rcases hcases with ⟨-,hw,-⟩ | ⟨-,-,hw⟩ | ⟨x,hx,hxu,-,hw⟩
      · cases hw.symm.trans hu
      · cases hw.symm.trans hu
        exact ⟨⟨rest,hchain,hself⟩,fun path hpath => hagrees path (hpath.mono (hold u))⟩
      · cases hw.symm.trans hu
        refine ⟨⟨rest ++ [x],by rw [hchain]; rfl,?_⟩,fun path hpath => ?_⟩
        · rw [List.mem_append,List.mem_singleton,not_or]
          exact ⟨hself,Ne.symm hxu⟩
        · have hbefore := hpath.mono (hold u)
          exact Agrees.further (hx ▸ hagrees path hbefore) hbefore.2
    · rw [followed_other hut] at hu
      exact ⟨(h.walking u chain' next' hu).1,fun path hpath => (h.walking u chain' next' hu).2 path (hpath.mono (hold u))⟩
  · have hbefore := hpath.mono (hold u)
    by_cases hut : u = task
    · subst hut
      rcases hcases with ⟨-,-,hlimit⟩ | ⟨-,-,hw⟩ | ⟨x,-,-,-,hw⟩
      · exact Agrees.no_circle hchain hself hne hlength hlimit hbefore.1 (hagrees _ hbefore)
      · cases hw.symm.trans hu
      · cases hw.symm.trans hu
    · rw [followed_other hut] at hu
      exact h.waiting u hu path hne hlength hbefore
  · rcases hcases with ⟨hsame,-⟩ | ⟨-,hr',hw⟩ | ⟨x,-,-,hsame,-⟩
    · exact absurd (hrefused.symm.trans (hsame.symm.trans hr)) (by simp)
    · cases hr'.symm.trans hr
      exact ⟨next,hw⟩
    · exact absurd (hrefused.symm.trans (hsame.symm.trans hr)) (by simp)

theorem Inv.step (h : Inv stamp clock s) (hs : step s a = some t) : ∃ stamp clock, Inv stamp clock t := by
  obtain ⟨hrefused,⟨task,target,-,hrun,rfl⟩ | ⟨task,chain,next,-,hp,rfl⟩ | ⟨task,-,-,rfl⟩⟩ := step_cases hs
  · exact ⟨_,_,h.startAwaiting hrefused hrun⟩
  · exact ⟨_,_,h.followed hrefused hp⟩
  · exact ⟨_,_,h.stopAwaiting hrefused⟩

/-! ### Circles -/

theorem Circle.rotate {awaiting : ℕ → Option ℕ} {tasks : List ℕ} (h : Circle awaiting tasks) (ht : task ∈ tasks) :
    ∃ rest, (∀ u, u ∈ task :: rest ↔ u ∈ tasks) ∧ (task :: rest).length = tasks.length ∧
      (task :: rest ++ [task]).IsChain fun a b => awaiting a = some b := by
  obtain ⟨first,rest,rfl,hchain⟩ := h
  rcases List.mem_cons.mp ht with rfl | ht
  · exact ⟨rest,fun u => Iff.rfl,rfl,hchain⟩
  · obtain ⟨before,after,rfl⟩ := List.append_of_mem ht
    refine ⟨after ++ first :: before,fun u => ?_,?_,?_⟩
    · simp only [List.mem_cons,List.mem_append]
      tauto
    · simp only [List.length_cons,List.length_append]
      omega
    · have hsplit : first :: (before ++ task :: after) ++ [first] = (first :: before) ++ task :: (after ++ [first]) := by simp
      rw [hsplit,List.isChain_split] at hchain
      have hjoin : task :: (after ++ first :: before) ++ [task] = (task :: after) ++ first :: (before ++ [task]) := by simp
      rw [hjoin,List.isChain_split]
      exact ⟨hchain.2,hchain.1⟩

theorem chain_links {awaiting : ℕ → Option ℕ} {last : ℕ} : ∀ tasks : List ℕ, (tasks ++ [last]).IsChain (fun a b => awaiting a = some b) →
    ∀ u ∈ tasks, awaiting u ≠ none
  | [], _, _, hu => by cases hu
  | [v], h, u, hu => by
    cases List.mem_singleton.mp hu
    have hlink := (List.isChain_cons_cons.mp h).1
    rw [hlink]
    exact Option.some_ne_none _
  | v :: w :: tasks, h, u, hu => by
    obtain ⟨hlink,hrest⟩ := List.isChain_cons_cons.mp h
    rcases List.mem_cons.mp hu with rfl | hu
    · rw [hlink]
      exact Option.some_ne_none _
    · exact chain_links (w :: tasks) hrest u hu

theorem Inv.noticed (h : Inv stamp clock s) : Noticed s := by
  intro tasks hn hlength hcircle
  by_contra hnot
  rw [not_or] at hnot
  have hset : ∀ u ∈ tasks, s.awaiting u ≠ none := by
    obtain ⟨first,rest,rfl,hchain⟩ := hcircle
    exact chain_links _ hchain
  have hne : tasks.toFinset.Nonempty := by
    obtain ⟨first,rest,rfl,-⟩ := hcircle
    exact ⟨first,List.mem_toFinset.mpr List.mem_cons_self⟩
  obtain ⟨last,hlast,hmax⟩ := Finset.exists_max_image tasks.toFinset stamp hne
  rw [List.mem_toFinset] at hlast
  obtain ⟨rest,hsame,hlen,hchain⟩ := hcircle.rotate hlast
  have hwaiting : s.phase last = .waiting := by
    cases hp : s.phase last with
    | running => exact absurd ((h.running last).mp hp) (hset last hlast)
    | walking chain next => exact absurd ⟨last,hlast,chain,next,hp⟩ hnot.1
    | waiting => rfl
  refine h.waiting last hwaiting (last :: rest) (List.cons_ne_nil _ _) (hlen ▸ hlength) ⟨rfl,?_⟩
  have hlinked := chain_links _ hchain
  refine List.isChain_append.mpr ?_
  obtain ⟨hinner,-,hclose⟩ := List.isChain_append.mp hchain
  have hstamp : ∀ u ∈ last :: rest, u = last ∨ stamp u < stamp last := by
    intro u hu
    have hle := hmax u (List.mem_toFinset.mpr ((hsame u).mp hu))
    rcases Nat.lt_or_eq_of_le hle with hlt | heq
    · exact Or.inr hlt
    · exact Or.inl (h.distinct u last (hlinked u hu) (hset last hlast) heq)
  refine ⟨hinner.imp_of_mem_imp fun a b ha _ hab => ⟨hab,hstamp a ha⟩,List.isChain_singleton _,fun x hx y hy => ?_⟩
  exact ⟨hclose x hx y hy,hstamp x (List.mem_of_getLast? hx)⟩

/-! ### Chains that stay in place -/

structure Kept (s : State) : Prop where
  running : ∀ u, s.phase u = .running → s.awaiting u = none
  walking : ∀ u chain next, s.phase u = .walking chain next → (∃ rest, chain = u :: rest) ∧
    (chain ++ next.toList).IsChain fun a b => s.awaiting a = some b
  refused : ∀ u chain, s.refused = some (u,chain) → s.phase u = .walking chain (some u)

theorem chain_congr {awaiting awaiting' : ℕ → Option ℕ} (hchain : (chain ++ next.toList).IsChain fun a b => awaiting a = some b)
    (hsame : ∀ a ∈ chain, ∀ b, awaiting a = some b → awaiting' a = some b) :
    (chain ++ next.toList).IsChain fun a b => awaiting' a = some b := by
  obtain ⟨hinner,-,hclose⟩ := List.isChain_append.mp hchain
  refine List.isChain_append.mpr ⟨hinner.imp_of_mem_imp fun a b ha _ hab => hsame a ha b hab,?_,fun x hx y hy => ?_⟩
  · cases next with
    | none => exact List.isChain_nil
    | some x => exact List.isChain_singleton x
  · exact hsame x (List.mem_of_getLast? hx) y (hclose x hx y hy)

theorem kept_step (h : Kept s) (hc : Undisturbed s a) (hs : step s a = some t) : Kept t := by
  obtain ⟨hrefused,⟨task,target,-,hrun,rfl⟩ | ⟨task,chain,next,-,hp,rfl⟩ | ⟨task,rfl,hwait,rfl⟩⟩ := step_cases hs
  · have hnone := h.running task hrun
    refine ⟨fun u hu => ?_,fun u chain next hu => ?_,fun u chain hr => absurd (hrefused.symm.trans hr) (by simp)⟩
    · have hut : u ≠ task := fun heq => by
        rw [heq] at hu
        cases put_same.symm.trans hu
      exact (put_other hut).trans (h.running u ((put_other hut).symm.trans hu))
    · by_cases hut : u = task
      · rw [hut] at hu ⊢
        have hphase : put s.phase task (.walking [task] (some target)) task = .walking [task] (some target) := put_same
        cases hphase.symm.trans hu
        refine ⟨⟨[],rfl⟩,List.isChain_cons_cons.mpr ⟨put_same,List.isChain_singleton _⟩⟩
      · obtain ⟨hhead,hchain⟩ := h.walking u chain next ((put_other hut).symm.trans hu)
        refine ⟨hhead,chain_congr hchain fun a _ b hab => ?_⟩
        have hat : a ≠ task := fun heq => by
          rw [heq,hnone] at hab
          cases hab
        exact (put_other hat).trans hab
  · have hlinks := followed_awaiting s task chain next
    obtain ⟨⟨rest,hhead⟩,hchain⟩ := h.walking task chain next hp
    have hcases := followed_cases hp
    refine ⟨fun u hu => ?_,fun u chain' next' hu => ?_,fun u chain' hr => ?_⟩
    · rw [hlinks]
      by_cases hut : u = task
      · rw [hut] at hu
        rcases hcases with ⟨-,hw,-⟩ | ⟨-,-,hw⟩ | ⟨x,-,-,-,hw⟩ <;> cases hw.symm.trans hu
      · rw [followed_other hut] at hu
        exact h.running u hu
    · rw [hlinks]
      by_cases hut : u = task
      · subst hut
        rcases hcases with ⟨-,hw,-⟩ | ⟨-,-,hw⟩ | ⟨x,rfl,-,-,hw⟩
        · cases hw.symm.trans hu
        · cases hw.symm.trans hu
          exact ⟨⟨rest,hhead⟩,hchain⟩
        · cases hw.symm.trans hu
          refine ⟨⟨rest ++ [x],by rw [hhead]; rfl⟩,?_⟩
          refine List.isChain_append.mpr ⟨hchain,?_,fun y hy z hz => ?_⟩
          · cases s.awaiting x with
            | none => exact List.isChain_nil
            | some y => exact List.isChain_singleton y
          · have hlast : (chain ++ [x]).getLast? = some x := List.getLast?_concat
            cases hlast.symm.trans hy
            cases hx : s.awaiting x with
            | none =>
              rw [hx] at hz
              cases hz
            | some y =>
              rw [hx] at hz
              cases hz
              rfl
      · rw [followed_other hut] at hu
        exact h.walking u chain' next' hu
    · rcases hcases with ⟨hsame,-⟩ | ⟨rfl,hr',hw⟩ | ⟨x,-,-,hsame,-⟩
      · exact absurd (hrefused.symm.trans (hsame.symm.trans hr)) (by simp)
      · cases hr'.symm.trans hr
        exact hw
      · exact absurd (hrefused.symm.trans (hsame.symm.trans hr)) (by simp)
  · refine ⟨fun u hu => ?_,fun u chain next hu => ?_,fun u chain hr => absurd (hrefused.symm.trans hr) (by simp)⟩
    · by_cases hut : u = task
      · rw [hut]
        exact put_same
      · exact (put_other hut).trans (h.running u ((put_other hut).symm.trans hu))
    · have hut : u ≠ task := fun heq => by
        rw [heq] at hu
        cases put_same.symm.trans hu
      have hu := (put_other hut).symm.trans hu
      obtain ⟨hhead,hchain⟩ := h.walking u chain next hu
      refine ⟨hhead,chain_congr hchain fun a ha b hab => ?_⟩
      have hat : a ≠ task := fun heq => hc task rfl u chain next hu (heq ▸ ha)
      exact (put_other hat).trans hab

theorem kept_start : Kept start where
  running _ _ := rfl
  walking _ _ _ h := by cases h
  refused _ _ h := by cases h

theorem Kept.inPlace (h : Kept s) (hr : s.refused = some (task,chain)) : Walking s task ∧ Circle s.awaiting chain := by
  have hp := h.refused task chain hr
  obtain ⟨⟨rest,hhead⟩,hchain⟩ := h.walking task chain (some task) hp
  exact ⟨⟨chain,_,hp⟩,task,rest,hhead,hchain⟩

/-- In every run no circle of tasks goes unnoticed, and in every run in which no task stops waiting while another follows a chain through
it, a task refuses only a circle that was in place. -/
theorem circles_noticed (actions : List Action) : HoldsAlong step Noticed start actions ∧
    (StepsMeet step Undisturbed start actions → InPlace actions) := by
  refine ⟨fun pre _ s hs => ?_,fun hmeet pre hpre s hs task chain hr => ?_⟩
  · have hinv : ∃ stamp clock, Inv stamp clock s :=
      exec_invariant (I := fun s => ∃ stamp clock, Inv stamp clock s) ⟨_,_,inv_start⟩ (fun s a t ⟨_,_,h⟩ hst => h.step hst) hs
    obtain ⟨stamp,clock,h⟩ := hinv
    exact h.noticed
  · have hkept := holdsAlong_of_stepsMeet (P := Kept) (C := Undisturbed) kept_start (fun s a t h hc hst => kept_step h hc hst) hmeet pre hpre s hs
    obtain ⟨hwalking,hcircle⟩ := hkept.inPlace hr
    refine ⟨pre,s,List.prefix_rfl,hs,fun mid u hpm hmp hu => ?_,hcircle⟩
    cases hpm.eq_of_length_le hmp.length_le
    cases hs.symm.trans hu
    exact hwalking

/-- The first task waits for the second, which waits for the third. Once the first has read whom the second waits for, the second is cancelled
and the third starts to wait for the first. -/
def phantomRun : List Action :=
  [.startAwaiting 1 2,.follow 1,.follow 1,.startAwaiting 0 1,.follow 0,.stopAwaiting 1,.startAwaiting 2 0,.follow 0,.follow 0]

/-- A task may refuse a circle that was never in place. -/
theorem phantom_refused : ¬∀ actions, HoldsAlong step Noticed start actions ∧ InPlace actions := by
  intro h
  have hend : (exec step start phantomRun).map State.refused = some (some (0,[0,1,2])) := by decide
  have hnever : ∀ k < 10, ((exec step start (phantomRun.take k)).all fun t => !(t.awaiting 1 = some 2 ∧ t.awaiting 2 = some 0)) = true := by
    decide
  obtain ⟨s,hs,hr⟩ := Option.map_eq_some_iff.mp hend
  obtain ⟨moment,t,hpre,ht,-,hcircle⟩ := (h phantomRun).2 phantomRun List.prefix_rfl s hs 0 [0,1,2] hr
  obtain ⟨first,rest,hsame,hchain⟩ := hcircle
  cases hsame
  have hsecond := (List.isChain_cons_cons.mp (List.isChain_cons_cons.mp hchain).2).1
  have hthird := (List.isChain_cons_cons.mp (List.isChain_cons_cons.mp (List.isChain_cons_cons.mp hchain).2).2).1
  rw [List.prefix_iff_eq_take.mp hpre] at ht
  have hcheck := hnever moment.length (Nat.lt_succ_of_le hpre.length_le)
  rw [ht,Option.all_some,Bool.not_eq_true',decide_eq_false_iff_not] at hcheck
  exact hcheck ⟨hsecond,hthird⟩

end Ens.Tasks.Awaiting
