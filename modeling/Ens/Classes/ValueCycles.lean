import Ens.Logic.Saturation
import Mathlib.Data.List.Forall2
import Mathlib.Data.List.Lex
import Mathlib.Data.Prod.Lex
import Mathlib.Data.Finset.Max
import Mathlib.Data.Char
import Mathlib.Logic.Relation

/-! # Structs that contain themselves

A field keeps a struct inside the struct that declares it, so structs that lead back to themselves have no layout. Each struct counts as its
template. What is found from a struct is what its own fields reach, through the instantiations they are written with.
-/
set_option linter.all false
namespace Ens.ValueCycles
open Relation

/-! ### Types and their fields -/

inductive Ty (N : Type)
  | declared (n : N)
  | instantiation (template : N) (arguments : List (Ty N))
  | optional (inner : Ty N)
  | array (element : Ty N)
  | function (signature : List (Ty N))
  | parameter (owner : N) (index : ℕ)
  | other (binding : Option N)

variable {N : Type} [DecidableEq N]

mutual
def Ty.decEq : (a b : Ty N) → Decidable (a = b)
  | .declared m, .declared n => decidable_of_iff (m = n) (by simp)
  | .instantiation m as, .instantiation n bs =>
    let := Ty.decEqs as bs
    decidable_of_iff (m = n ∧ as = bs) (by simp)
  | .optional a, .optional b =>
    let := Ty.decEq a b
    decidable_of_iff (a = b) (by simp)
  | .array a, .array b =>
    let := Ty.decEq a b
    decidable_of_iff (a = b) (by simp)
  | .function as, .function bs =>
    let := Ty.decEqs as bs
    decidable_of_iff (as = bs) (by simp)
  | .parameter m i, .parameter n j => decidable_of_iff (m = n ∧ i = j) (by simp)
  | .other m, .other n => decidable_of_iff (m = n) (by simp)
  | .declared _, .instantiation _ _ | .declared _, .optional _ | .declared _, .array _ | .declared _, .function _ | .declared _, .parameter _ _
  | .declared _, .other _ | .instantiation _ _, .declared _ | .instantiation _ _, .optional _ | .instantiation _ _, .array _
  | .instantiation _ _, .function _ | .instantiation _ _, .parameter _ _ | .instantiation _ _, .other _ | .optional _, .declared _
  | .optional _, .instantiation _ _ | .optional _, .array _ | .optional _, .function _ | .optional _, .parameter _ _ | .optional _, .other _
  | .array _, .declared _ | .array _, .instantiation _ _ | .array _, .optional _ | .array _, .function _ | .array _, .parameter _ _
  | .array _, .other _ | .function _, .declared _ | .function _, .instantiation _ _ | .function _, .optional _ | .function _, .array _
  | .function _, .parameter _ _ | .function _, .other _ | .parameter _ _, .declared _ | .parameter _ _, .instantiation _ _
  | .parameter _ _, .optional _ | .parameter _ _, .array _ | .parameter _ _, .function _ | .parameter _ _, .other _ | .other _, .declared _
  | .other _, .instantiation _ _ | .other _, .optional _ | .other _, .array _ | .other _, .function _ | .other _, .parameter _ _ =>
    isFalse (by simp)

def Ty.decEqs : (as bs : List (Ty N)) → Decidable (as = bs)
  | [], [] => isTrue rfl
  | [], _ :: _ | _ :: _, [] => isFalse (by simp)
  | a :: as, b :: bs =>
    let := Ty.decEq a b
    let := Ty.decEqs as bs
    decidable_of_iff (a = b ∧ as = bs) (by simp)
end

instance : DecidableEq (Ty N) := Ty.decEq

structure Field (N : Type) where
  name : List Char
  type : Ty N
  start : ℕ

/-- The types a program declares. Those that are no structs may hold fields too, none of them by value. -/
structure Program (N : Type) where
  isStruct : N → Bool
  fields : N → Option (List (Field N))
  filePath : N → List Char

mutual
/-- A type with the arguments of an instantiation in place of the parameters of its template. -/
def substitute (owner : N) (arguments : List (Ty N)) : Ty N → Ty N
  | .parameter m i => if m = owner then arguments.getD i (.parameter m i) else .parameter m i
  | .optional inner => .optional (substitute owner arguments inner)
  | .array element => .array (substitute owner arguments element)
  | .function signature => .function (substituteAll owner arguments signature)
  | .instantiation n as => .instantiation n (substituteAll owner arguments as)
  | .declared n => .declared n
  | .other binding => .other binding

def substituteAll (owner : N) (arguments : List (Ty N)) : List (Ty N) → List (Ty N)
  | [] => []
  | entry :: rest => substitute owner arguments entry :: substituteAll owner arguments rest
end

def authorityOf : Ty N → Option N
  | .declared n => some n
  | .instantiation n _ => some n
  | .other binding => binding
  | _ => none

variable (P : Program N)

def Program.fieldsOf : Ty N → Option (List (Field N))
  | .declared n => P.fields n
  | .instantiation n as => (P.fields n).map fun fields => fields.map fun f => { f with type := substitute n as f.type }
  | _ => none

def Program.byValueStruct : Ty N → Option (Ty N)
  | .optional inner => Program.byValueStruct inner
  | .declared n => if P.isStruct n then some (.declared n) else none
  | .instantiation n as => if P.isStruct n then some (.instantiation n as) else none
  | _ => none

/-! ### Components -/

structure Edge (N : Type) where
  source : N
  target : N
  owner : Ty N
  field : Field N

/-- One field of a type: the struct it keeps is pending unless it was before, and the edge is new unless one of its name leads there already. -/
def Program.follow (source : N) (current : Ty N) (front : List (Ty N)) (found : List (Ty N) × List (Edge N)) (field : Field N) :
    List (Ty N) × List (Edge N) :=
  match P.byValueStruct field.type with
  | none => found
  | some target =>
    match authorityOf target with
    | none => found
    | some template =>
      (if target ∈ front ++ found.1 then found.1 else found.1 ++ [target],
        if found.2.any (fun e => e.source = source ∧ e.target = template ∧ e.field.name = field.name) then found.2
        else found.2 ++ [⟨source,template,current,field⟩])

def Program.explore : ℕ → List (Ty N) → List (Ty N) → List (Edge N) → Option (List (Edge N))
  | 0, _, _, _ => none
  | _ + 1, _, [], edges => some edges
  | fuel + 1, done, current :: rest, edges =>
    match authorityOf current, P.fieldsOf current with
    | some source, some fields =>
      let found := fields.foldl (P.follow source current (done ++ [current])) (rest,edges)
      Program.explore fuel (done ++ [current]) found.1 found.2
    | _, _ => Program.explore fuel (done ++ [current]) rest edges

def Program.reachableEdges (fuel : ℕ) (origin : N) : Option (List (Edge N)) := P.explore fuel [] [.declared origin] []

def grow (grown : List N × Bool) (e : Edge N) : List N × Bool :=
  if e.target ∈ grown.1 ∧ e.source ∉ grown.1 then (grown.1 ++ [e.source],true) else grown

def growMembers (edges : List (Edge N)) (members : List N) : List N × Bool := edges.foldl grow (members,false)

structure Component (N : Type) where
  structs : List N
  edges : List (Edge N)

def orderedSources (closing : List (Edge N)) : List N :=
  closing.foldl (fun ordered e => if e.source ∈ ordered then ordered else ordered ++ [e.source]) []

def Program.componentOf (fuel : ℕ) (origin : N) : Option (Option (Component N)) := do
  let edges ← P.reachableEdges fuel origin
  let members ← Saturation.untilSame (growMembers edges) (edges.length + 1) [origin]
  let closing := edges.filter fun e => e.source ∈ members ∧ e.target ∈ members
  if closing.any (·.target = origin) then return some ⟨orderedSources closing,closing⟩ else return none

/-! ### Reporting -/

def Program.declaredAt (n : N) : ℕ :=
  match P.fieldsOf (.declared n) with
  | some (f :: _) => f.start
  | _ => 0

def Program.precedes (first second : N) : Bool :=
  if P.filePath first ≠ P.filePath second then P.filePath first < P.filePath second else P.declaredAt first < P.declaredAt second

def Program.startsAmong (fuel : ℕ) (start : N) : List N → Option Bool
  | [] => some true
  | other :: rest =>
    if other = start ∨ P.precedes other start = false ∨ P.isStruct other = false then Program.startsAmong fuel start rest
    else do
      let theirs ← P.componentOf fuel other
      if theirs.any (fun c => start ∈ c.structs) then return false else Program.startsAmong fuel start rest

def Program.startsAt (fuel : ℕ) (component : Component N) (start : N) : Option Bool := P.startsAmong fuel start component.structs

def Program.reportedFrom (fuel : ℕ) (start : N) : Option Bool := do
  match ← P.componentOf fuel start with
  | none => return false
  | some component => P.startsAt fuel component start

/-! ### Breaking -/

namespace Component
variable (c : Component N)

/-- The edges out of one struct, with those seen and those pending, or nothing where one leads back. -/
def followOut (removed : List N) (start current : N) : List (Edge N) → List N × List N → Option (List N × List N)
  | [], looked => some looked
  | e :: edges, (seen,pending) =>
    if e.source ≠ current ∨ e.target ∈ removed then followOut removed start current edges (seen,pending)
    else if e.target = start then none
    else if e.target ∈ seen then followOut removed start current edges (seen,pending)
    else followOut removed start current edges (e.target :: seen,e.target :: pending)

def search (removed : List N) (start : N) : ℕ → List N × List N → Option Bool
  | 0, _ => none
  | _ + 1, (_,[]) => some false
  | fuel + 1, (seen,current :: pending) =>
    match followOut removed start current c.edges (seen,pending) with
    | none => some true
    | some looked => search removed start fuel looked

def onCycleWithout (start : N) (removed : List N) : Option Bool := c.search removed start (c.edges.length + 2) ([],[start])

def hasCycleWithout (removed : List N) : Option Bool :=
  c.structs.anyM fun start => if start ∈ removed then some false else c.onCycleWithout start removed

def insertSorted (before : N → N → Bool) (candidate : N) (sorted : List N) : List N :=
  sorted.takeWhile (before · candidate) ++ candidate :: sorted.dropWhile (before · candidate)

def sortedStructs (before : N → N → Bool) : List N := c.structs.foldl (fun sorted candidate => insertSorted before candidate sorted) []

def breakRounds (ordered : List N) : ℕ → List N → Option (List N)
  | 0, _ => none
  | fuel + 1, removed => do
    if ← c.hasCycleWithout removed then
      match ← ordered.findM? fun candidate => if candidate ∈ removed then some false else c.onCycleWithout candidate removed with
      | some candidate => breakRounds ordered fuel (removed ++ [candidate])
      | none => breakRounds ordered fuel removed
    else return removed

def breakingStructs (before : N → N → Bool) : Option (List N) := do
  let ordered := c.sortedStructs before
  match ← ordered.findM? fun candidate => (c.hasCycleWithout [candidate]).map (!·) with
  | some candidate => return [candidate]
  | none => c.breakRounds ordered (c.structs.length + 1) []

end Component

/-! ### Field paths -/

variable {P}

/-- A type keeps a struct inside itself by one of its fields. -/
def Program.Holds (P : Program N) (t u : Ty N) : Prop := ∃ fields f, P.fieldsOf t = some fields ∧ f ∈ fields ∧ P.byValueStruct f.type = some u

/-- The types on the field paths from a struct, as they are written. -/
def Program.Reached (P : Program N) (origin : N) (t : Ty N) : Prop := ReflTransGen P.Holds (.declared origin) t

/-- One field on those paths, from a struct to a struct. -/
def Program.Leads (P : Program N) (origin m n : N) : Prop :=
  ∃ t u, P.Reached origin t ∧ P.Holds t u ∧ authorityOf t = some m ∧ authorityOf u = some n

omit [DecidableEq N] in
theorem byValueStruct_struct {t u : Ty N} (h : P.byValueStruct t = some u) :
    ∃ n, P.isStruct n = true ∧ (u = .declared n ∨ ∃ arguments, u = .instantiation n arguments) := by
  induction t using Ty.rec (motive_2 := fun _ => True) with
  | declared n =>
    rw [Program.byValueStruct] at h
    split at h
    · rename_i hn
      exact ⟨n,hn,.inl (Option.some.inj h).symm⟩
    · cases h
  | instantiation n as _ =>
    rw [Program.byValueStruct] at h
    split at h
    · rename_i hn
      exact ⟨n,hn,.inr ⟨as,(Option.some.inj h).symm⟩⟩
    · cases h
  | optional inner ih => exact ih h
  | array | function | parameter | other => cases h
  | nil | cons => trivial

omit [DecidableEq N] in
theorem byValueStruct_authority {t u : Ty N} (h : P.byValueStruct t = some u) : ∃ n, authorityOf u = some n ∧ P.isStruct n = true := by
  obtain ⟨n,hn,rfl | ⟨arguments,rfl⟩⟩ := byValueStruct_struct h
  · exact ⟨n,rfl,hn⟩
  · exact ⟨n,rfl,hn⟩

theorem fieldsOf_authority {t : Ty N} {fields : List (Field N)} (h : P.fieldsOf t = some fields) : ∃ n, authorityOf t = some n := by
  cases t with
  | declared n => exact ⟨n,rfl⟩
  | instantiation n as => exact ⟨n,rfl⟩
  | optional | array | function | parameter | other => cases h

theorem Program.Holds.left {t u : Ty N} (h : P.Holds t u) : ∃ n, authorityOf t = some n := by
  obtain ⟨fields,f,hf,-,-⟩ := h
  exact fieldsOf_authority hf

theorem Program.Holds.right {t u : Ty N} (h : P.Holds t u) : ∃ n, authorityOf u = some n ∧ P.isStruct n = true := by
  obtain ⟨fields,f,-,-,hu⟩ := h
  exact byValueStruct_authority hu

/-- An edge from a struct to a struct is among those found. -/
def Linked (edges : List (Edge N)) (m n : N) : Prop := ∃ e ∈ edges, e.source = m ∧ e.target = n

/-! ### The types explored -/

section Follow
variable {source : N} {current : Ty N} {front : List (Ty N)}

theorem follow_spec (found : List (Ty N) × List (Edge N)) (f : Field N) :
    ((front ++ found.1).Nodup → (front ++ (P.follow source current front found f).1).Nodup) ∧
    (∀ t, t ∈ front ++ (P.follow source current front found f).1 ↔ t ∈ front ++ found.1 ∨ P.byValueStruct f.type = some t) ∧
    ∀ m n, Linked (P.follow source current front found f).2 m n ↔
      Linked found.2 m n ∨ m = source ∧ ∃ u, P.byValueStruct f.type = some u ∧ authorityOf u = some n := by
  unfold Program.follow
  cases hv : P.byValueStruct f.type with
  | none => simp
  | some target =>
    obtain ⟨template,ht,-⟩ := byValueStruct_authority hv
    simp only [ht,Option.some.injEq,exists_eq_left']
    refine ⟨fun hnodup => ?_,fun t => ?_,fun m n => ?_⟩
    · split
      · exact hnodup
      · rename_i hnew
        rw [← List.append_assoc]
        exact hnodup.append (by simp) (by simpa using hnew)
    · split
      · rename_i hin
        constructor
        · exact .inl
        · rintro (h | rfl)
          · exact h
          · exact hin
      · simp only [List.mem_append,List.mem_singleton,or_assoc,eq_comm]
    · split
      · rename_i hany
        obtain ⟨e,he,hsame⟩ := List.any_eq_true.1 hany
        simp only [decide_eq_true_eq] at hsame
        constructor
        · exact .inl
        · rintro (h | ⟨rfl,rfl⟩)
          · exact h
          · exact ⟨e,he,hsame.1,hsame.2.1⟩
      · simp only [Linked,List.mem_append,List.mem_singleton,or_and_right,exists_or,exists_eq_left]
        simp only [eq_comm]

theorem follow_fold (fields : List (Field N)) (found : List (Ty N) × List (Edge N)) :
    ((front ++ found.1).Nodup → (front ++ (fields.foldl (P.follow source current front) found).1).Nodup) ∧
    (∀ t, t ∈ front ++ (fields.foldl (P.follow source current front) found).1 ↔
      t ∈ front ++ found.1 ∨ ∃ f ∈ fields, P.byValueStruct f.type = some t) ∧
    ∀ m n, Linked (fields.foldl (P.follow source current front) found).2 m n ↔
      Linked found.2 m n ∨ m = source ∧ ∃ f ∈ fields, ∃ u, P.byValueStruct f.type = some u ∧ authorityOf u = some n := by
  induction fields generalizing found with
  | nil => simp
  | cons f fields ih =>
    obtain ⟨h1,h2,h3⟩ := @follow_spec N _ P source current front found f
    obtain ⟨i1,i2,i3⟩ := ih (P.follow source current front found f)
    rw [List.foldl_cons]
    refine ⟨i1 ∘ h1,fun t => ?_,fun m n => ?_⟩
    · rw [i2,h2,List.exists_mem_cons_iff,or_assoc]
    · rw [i3,h3,List.exists_mem_cons_iff,and_or_left,or_assoc]

end Follow

structure Explored (P : Program N) (origin : N) (done rest : List (Ty N)) (edges : List (Edge N)) : Prop where
  nodup : (done ++ rest).Nodup
  start : .declared origin ∈ done ++ rest
  reached : ∀ t ∈ done ++ rest, P.Reached origin t
  closed : ∀ t ∈ done, ∀ u, P.Holds t u → u ∈ done ++ rest
  linked : ∀ m n, Linked edges m n ↔ ∃ t ∈ done, ∃ u, P.Holds t u ∧ authorityOf t = some m ∧ authorityOf u = some n

variable {origin : N} {done rest : List (Ty N)} {edges : List (Edge N)} {current : Ty N}

theorem Explored.skip (h : Explored P origin done (current :: rest) edges) (hf : P.fieldsOf current = none) :
    Explored P origin (done ++ [current]) rest edges := by
  have hno : ∀ u, ¬ P.Holds current u := by
    rintro u ⟨fields,f,hfields,-⟩
    rw [hf] at hfields
    cases hfields
  refine ⟨by simpa using h.nodup,by simpa using h.start,by simpa using h.reached,fun t ht u hu => ?_,fun m n => ?_⟩
  · rcases List.mem_append.1 ht with ht | ht
    · simpa using h.closed t ht u hu
    · rw [List.mem_singleton.1 ht] at hu
      exact absurd hu (hno u)
  · rw [h.linked]
    constructor
    · rintro ⟨t,ht,u,hu⟩
      exact ⟨t,by simp [ht],u,hu⟩
    · rintro ⟨t,ht,u,hu,hm⟩
      rcases List.mem_append.1 ht with ht | ht
      · exact ⟨t,ht,u,hu,hm⟩
      · rw [List.mem_singleton.1 ht] at hu
        exact absurd hu (hno u)

theorem Explored.next (h : Explored P origin done (current :: rest) edges) {source : N} {fields : List (Field N)}
    (hs : authorityOf current = some source) (hf : P.fieldsOf current = some fields) :
    Explored P origin (done ++ [current]) (fields.foldl (P.follow source current (done ++ [current])) (rest,edges)).1
      (fields.foldl (P.follow source current (done ++ [current])) (rest,edges)).2 := by
  obtain ⟨h1,h2,h3⟩ := @follow_fold N _ P source current (done ++ [current]) fields (rest,edges)
  have hsplit : done ++ [current] ++ rest = done ++ current :: rest := by simp
  simp only [hsplit] at h1 h2
  have hholds : ∀ u, P.Holds current u ↔ ∃ f ∈ fields, P.byValueStruct f.type = some u := by
    intro u
    constructor
    · rintro ⟨fields',f,hf',hmem,hu⟩
      obtain rfl := Option.some.inj (hf.symm.trans hf')
      exact ⟨f,hmem,hu⟩
    · rintro ⟨f,hmem,hu⟩
      exact ⟨fields,f,hf,hmem,hu⟩
  have hcur : P.Reached origin current := h.reached current (by simp)
  refine ⟨h1 h.nodup,(h2 _).2 (.inl h.start),fun t ht => ?_,fun t ht u hu => ?_,fun m n => ?_⟩
  · rcases (h2 t).1 ht with ht | ht
    · exact h.reached t ht
    · exact hcur.tail ((hholds t).2 ht)
  · rw [h2]
    rcases List.mem_append.1 ht with ht | ht
    · exact .inl (h.closed t ht u hu)
    · rw [List.mem_singleton.1 ht] at hu
      exact .inr ((hholds u).1 hu)
  · rw [h3,h.linked]
    constructor
    · rintro (⟨t,ht,u,hu⟩ | ⟨rfl,f,hmem,u,hu,hn⟩)
      · exact ⟨t,by simp [ht],u,hu⟩
      · exact ⟨current,by simp,u,(hholds u).2 ⟨f,hmem,hu⟩,hs,hn⟩
    · rintro ⟨t,ht,u,hu,hm,hn⟩
      rcases List.mem_append.1 ht with ht | ht
      · exact .inl ⟨t,ht,u,hu,hm,hn⟩
      · rw [List.mem_singleton.1 ht] at hu hm
        obtain ⟨f,hmem,hf'⟩ := (hholds u).1 hu
        exact .inr ⟨Option.some.inj (hm.symm.trans hs),f,hmem,u,hf',hn⟩

structure Finite (P : Program N) (all : List (Ty N)) : Prop where
  start : ∀ n, P.isStruct n = true → .declared n ∈ all
  closed : ∀ t ∈ all, ∀ u, P.Holds t u → u ∈ all

variable {all : List (Ty N)} {fuel : ℕ}

theorem Finite.reached (hall : Finite P all) (ho : P.isStruct origin = true) {t : Ty N} (h : P.Reached origin t) : t ∈ all := by
  induction h with
  | refl => exact hall.start origin ho
  | tail _ hu ih => exact hall.closed _ ih _ hu

theorem explore_ok (hall : Finite P all) (ho : P.isStruct origin = true) (h : Explored P origin done rest edges)
    (hfuel : all.length < fuel + done.length) :
    ∃ edges', P.explore fuel done rest edges = some edges' ∧ ∀ m n, Linked edges' m n ↔ P.Leads origin m n := by
  have hlen : done.length + rest.length ≤ all.length := by
    rw [← List.length_append]
    exact (h.nodup.subperm fun t ht => hall.reached ho (h.reached t ht)).length_le
  induction fuel generalizing done rest edges with
  | zero => omega
  | succ fuel ih =>
    cases rest with
    | nil =>
      refine ⟨edges,rfl,fun m n => ?_⟩
      have hdone : ∀ t, P.Reached origin t ↔ t ∈ done := by
        intro t
        constructor
        · intro ht
          induction ht with
          | refl => simpa using h.start
          | tail _ hu ih => simpa using h.closed _ ih _ hu
        · intro ht
          exact h.reached t (by simp [ht])
      rw [h.linked]
      simp only [Program.Leads,hdone]
      constructor
      · rintro ⟨t,ht,u,hu⟩
        exact ⟨t,u,ht,hu⟩
      · rintro ⟨t,u,ht,hu⟩
        exact ⟨t,ht,u,hu⟩
    | cons current rest =>
      rw [Program.explore]
      cases hf : P.fieldsOf current with
      | none =>
        have hskip := h.skip hf
        have hrun := ih hskip (by simp; omega) (by
          rw [← List.length_append]
          exact (hskip.nodup.subperm fun t ht => hall.reached ho (hskip.reached t ht)).length_le)
        cases hs : authorityOf current with
        | none => exact hrun
        | some source => exact hrun
      | some fields =>
        obtain ⟨source,hs⟩ := fieldsOf_authority hf
        have hnext := h.next hs hf
        rw [hs]
        refine ih hnext (by simp; omega) ?_
        rw [← List.length_append]
        exact (hnext.nodup.subperm fun t ht => hall.reached ho (hnext.reached t ht)).length_le

theorem reachableEdges_ok (hall : Finite P all) (ho : P.isStruct origin = true) (hfuel : all.length < fuel) :
    ∃ edges, P.reachableEdges fuel origin = some edges ∧ ∀ m n, Linked edges m n ↔ P.Leads origin m n := by
  refine explore_ok hall ho ⟨by simp,by simp,?_,by simp,by simp [Linked]⟩ (by simpa using hfuel)
  intro t ht
  rw [show t = .declared origin by simpa using ht]
  exact ReflTransGen.refl

/-! ### The members of a component -/

theorem grow_fold (edges : List (Edge N)) (grown : List N × Bool) :
    grown.1 ⊆ (edges.foldl grow grown).1 ∧
      ((edges.foldl grow grown).2 = true → grown.2 = true ∨ ∃ e ∈ edges, e.source ∉ grown.1 ∧ e.source ∈ (edges.foldl grow grown).1) ∧
      ((edges.foldl grow grown).2 = false →
        grown.2 = false ∧ (edges.foldl grow grown).1 = grown.1 ∧ ∀ e ∈ edges, e.target ∈ grown.1 → e.source ∈ grown.1) ∧
      ∀ I : N → Prop, (∀ e ∈ edges, I e.target → I e.source) → (∀ n ∈ grown.1, I n) → ∀ n ∈ (edges.foldl grow grown).1, I n := by
  induction edges generalizing grown with
  | nil => simp
  | cons e edges ih =>
    rw [List.foldl_cons]
    obtain ⟨h1,h2,h3,h4⟩ := ih (grow grown e)
    by_cases he : e.target ∈ grown.1 ∧ e.source ∉ grown.1
    · have hgrow : grow grown e = (grown.1 ++ [e.source],true) := if_pos he
      rw [hgrow] at h1 h2 h3 h4 ⊢
      refine ⟨fun n hn => h1 (by simp [hn]),fun _ => .inr ⟨e,by simp,he.2,h1 (by simp)⟩,fun hfalse => absurd (h3 hfalse).1 (by simp),
        fun I hI hn => h4 I (fun e' he' => hI e' (by simp [he'])) fun n hmem => ?_⟩
      rcases List.mem_append.1 hmem with hmem | hmem
      · exact hn n hmem
      · rw [List.mem_singleton.1 hmem]
        exact hI e (by simp) (hn _ he.1)
    · have hgrow : grow grown e = grown := if_neg he
      rw [hgrow] at h1 h2 h3 h4 ⊢
      refine ⟨h1,fun htrue => ?_,fun hfalse => ?_,fun I hI hn => h4 I (fun e' he' => hI e' (by simp [he'])) hn⟩
      · rcases h2 htrue with h | ⟨e',he',hn⟩
        · exact .inl h
        · exact .inr ⟨e',by simp [he'],hn⟩
      · obtain ⟨hflag,hsame,hall⟩ := h3 hfalse
        refine ⟨hflag,hsame,fun e' he' ht => ?_⟩
        rcases List.mem_cons.1 he' with rfl | he'
        · exact not_not.1 fun hn => he ⟨ht,hn⟩
        · exact hall e' he' ht

/-- The sources of edges that are no members yet. -/
def outside (edges : List (Edge N)) (members : List N) : Finset N := (edges.map Edge.source).toFinset \ members.toFinset

theorem growMembers_ok (edges : List (Edge N)) (origin : N) :
    ∃ members, Saturation.untilSame (growMembers edges) (edges.length + 1) [origin] = some members ∧
      ∀ n, n ∈ members ↔ ReflTransGen (Linked edges) n origin := by
  have hmeasure : ∀ members, (growMembers edges members).2 = true →
      (outside edges (growMembers edges members).1).card < (outside edges members).card := by
    intro members hgrew
    obtain ⟨h1,h2,-,-⟩ := grow_fold edges (members,false)
    obtain ⟨e,he,hout,hin⟩ := (h2 hgrew).resolve_left (by simp)
    refine Finset.card_lt_card (Finset.ssubset_iff_of_subset ?_ |>.2 ⟨e.source,?_,?_⟩)
    · intro n hn
      simp only [outside,Finset.mem_sdiff,List.mem_toFinset] at hn ⊢
      exact ⟨hn.1,fun h => hn.2 (h1 h)⟩
    · simp only [outside,Finset.mem_sdiff,List.mem_toFinset]
      exact ⟨List.mem_map_of_mem he,hout⟩
    · simp only [outside,Finset.mem_sdiff,List.mem_toFinset,not_and,not_not]
      exact fun _ => hin
  have hbound : (outside edges [origin]).card < edges.length + 1 := by
    have hsub : (outside edges [origin]).card ≤ (edges.map Edge.source).toFinset.card := Finset.card_le_card Finset.sdiff_subset
    have hlen := List.toFinset_card_le (edges.map Edge.source)
    rw [List.length_map] at hlen
    omega
  obtain ⟨members,hrun⟩ := Saturation.untilSame_measure (fun members => (outside edges members).card) hmeasure hbound
  refine ⟨members,hrun,fun n => ?_⟩
  have hkeep : ∀ members : List N, (origin ∈ members ∧ ∀ n ∈ members, ReflTransGen (Linked edges) n origin) →
      origin ∈ (growMembers edges members).1 ∧ ∀ n ∈ (growMembers edges members).1, ReflTransGen (Linked edges) n origin := by
    rintro members ⟨horigin,hmem⟩
    obtain ⟨h1,-,-,h4⟩ := grow_fold edges (members,false)
    exact ⟨h1 horigin,h4 _ (fun e he h => h.head ⟨e,he,rfl,rfl⟩) hmem⟩
  obtain ⟨last,⟨horigin,hreach⟩,hsame,rfl⟩ := Saturation.untilSame_last hkeep (by simp [ReflTransGen.refl]) hrun
  obtain ⟨-,-,h3,-⟩ := grow_fold edges (last,false)
  obtain ⟨-,hlast,hclosed⟩ := h3 hsame
  rw [show (growMembers edges last).1 = last from hlast]
  refine ⟨hreach n,fun h => ?_⟩
  induction h using ReflTransGen.head_induction_on with
  | refl => exact horigin
  | head hstep _ ih =>
    obtain ⟨e,he,rfl,rfl⟩ := hstep
    exact hclosed e he ih

omit [DecidableEq N] in
theorem mem_foldl_sources [DecidableEq N] (closing : List (Edge N)) (ordered : List N) (n : N) :
    n ∈ closing.foldl (fun ordered e => if e.source ∈ ordered then ordered else ordered ++ [e.source]) ordered ↔
      n ∈ ordered ∨ ∃ e ∈ closing, e.source = n := by
  induction closing generalizing ordered with
  | nil => simp
  | cons e closing ih =>
    rw [List.foldl_cons,ih,List.exists_mem_cons_iff,← or_assoc]
    refine or_congr_left ?_
    split
    · rename_i he
      exact ⟨.inl,fun h => h.elim id fun h => h ▸ he⟩
    · simp [eq_comm]

/-- What a component holds: the structs on the field paths from a struct back to it, and the fields between them. -/
structure IsComponent (P : Program N) (origin : N) (c : Component N) : Prop where
  structs_iff : ∀ n, n ∈ c.structs ↔ TransGen (P.Leads origin) origin n ∧ TransGen (P.Leads origin) n origin
  linked_iff : ∀ m n, Linked c.edges m n ↔ P.Leads origin m n ∧ m ∈ c.structs ∧ n ∈ c.structs

theorem Program.Leads.source {m n : N} (h : P.Leads origin m n) : ReflTransGen (P.Leads origin) origin m := by
  obtain ⟨t,u,ht,-,hm,-⟩ := h
  clear u
  induction ht generalizing m with
  | refl =>
    cases hm
    exact ReflTransGen.refl
  | tail hb hu ih =>
    obtain ⟨k,hk⟩ := hu.left
    exact (ih hk).tail ⟨_,_,hb,hu,hk,hm⟩

theorem componentOf_ok (hall : Finite P all) (ho : P.isStruct origin = true) (hfuel : all.length < fuel) :
    ∃ found, P.componentOf fuel origin = some found ∧ (found.isSome = true ↔ TransGen (P.Leads origin) origin origin) ∧
      ∀ c, found = some c → IsComponent P origin c := by
  obtain ⟨edges,hedges,hlinked⟩ := reachableEdges_ok hall ho hfuel
  obtain ⟨members,hmembers,hmem⟩ := growMembers_ok edges origin
  have hrel : Linked edges = P.Leads origin := by
    funext m n
    exact propext (hlinked m n)
  rw [hrel] at hmem
  have hcycle : (edges.filter fun e => e.source ∈ members ∧ e.target ∈ members).any (·.target = origin) = true ↔
      TransGen (P.Leads origin) origin origin := by
    simp only [List.any_filter,List.any_eq_true,Bool.and_eq_true,decide_eq_true_eq]
    constructor
    · rintro ⟨e,he,-,rfl⟩
      have hlead := (hlinked e.source e.target).1 ⟨e,he,rfl,rfl⟩
      exact TransGen.tail' hlead.source hlead
    · intro h
      obtain ⟨k,-,hk⟩ := TransGen.tail'_iff.1 h
      obtain ⟨e,he,rfl,rfl⟩ := (hlinked k origin).2 hk
      exact ⟨e,he,⟨(hmem _).2 (ReflTransGen.single hk),(hmem _).2 ReflTransGen.refl⟩,rfl⟩
  have hrun : P.componentOf fuel origin = if (edges.filter fun e => e.source ∈ members ∧ e.target ∈ members).any (·.target = origin)
      then some (some ⟨orderedSources (edges.filter fun e => e.source ∈ members ∧ e.target ∈ members),
        edges.filter fun e => e.source ∈ members ∧ e.target ∈ members⟩) else some none := by
    simp only [Program.componentOf,hedges,hmembers,Option.bind_eq_bind,Option.bind_some]
    rfl
  by_cases hback : TransGen (P.Leads origin) origin origin
  · rw [hrun,if_pos (hcycle.2 hback)]
    refine ⟨_,rfl,by simpa using hback,?_⟩
    rintro c hc
    obtain rfl := Option.some.inj hc
    have hstructs : ∀ n, n ∈ orderedSources (edges.filter fun e => e.source ∈ members ∧ e.target ∈ members) ↔
        TransGen (P.Leads origin) origin n ∧ TransGen (P.Leads origin) n origin := by
      intro n
      rw [orderedSources,mem_foldl_sources]
      simp only [List.not_mem_nil,false_or,List.mem_filter,decide_eq_true_eq]
      constructor
      · rintro ⟨e,⟨he,-,ht⟩,rfl⟩
        have hlead := (hlinked e.source e.target).1 ⟨e,he,rfl,rfl⟩
        refine ⟨?_,TransGen.head' hlead ((hmem _).1 ht)⟩
        exact TransGen.trans_left hback hlead.source
      · rintro ⟨-,h⟩
        obtain ⟨k,hk,hto⟩ := TransGen.head'_iff.1 h
        obtain ⟨e,he,rfl,rfl⟩ := (hlinked n k).2 hk
        exact ⟨e,⟨he,(hmem _).2 (ReflTransGen.head hk hto),(hmem _).2 hto⟩,rfl⟩
    refine ⟨hstructs,fun m n => ?_⟩
    simp only [hstructs,← hlinked]
    constructor
    · rintro ⟨e,he,rfl,rfl⟩
      obtain ⟨he,hin⟩ := List.mem_filter.1 he
      simp only [decide_eq_true_eq] at hin
      have hlead := (hlinked e.source e.target).1 ⟨e,he,rfl,rfl⟩
      have hgo := TransGen.trans_left hback hlead.source
      have hcome := (hmem _).1 hin.2
      exact ⟨⟨e,he,rfl,rfl⟩,⟨hgo,TransGen.head' hlead hcome⟩,hgo.tail hlead,hback.trans_right hcome⟩
    · rintro ⟨⟨e,he,rfl,rfl⟩,⟨-,hs⟩,-,ht⟩
      exact ⟨e,List.mem_filter.2 ⟨he,by simpa using ⟨(hmem _).2 hs.to_reflTransGen,(hmem _).2 ht.to_reflTransGen⟩⟩,rfl,rfl⟩
  · rw [hrun,if_neg (fun h => hback (hcycle.1 h))]
    exact ⟨none,rfl,by simpa using hback,by simp⟩

/-! ### What a template keeps, every instantiation keeps -/

mutual
/-- A type is another with some of its parameters filled, or with arguments that its template is written without. -/
inductive Fills : Ty N → Ty N → Prop
  | parameter (m : N) (i : ℕ) (t : Ty N) : Fills (.parameter m i) t
  | bare (n : N) (as : List (Ty N)) : Fills (.declared n) (.instantiation n as)
  | declared (n : N) : Fills (.declared n) (.declared n)
  | instantiation (n : N) {as bs : List (Ty N)} : FillsAll as bs → Fills (.instantiation n as) (.instantiation n bs)
  | optional {a b : Ty N} : Fills a b → Fills (.optional a) (.optional b)
  | array {a b : Ty N} : Fills a b → Fills (.array a) (.array b)
  | function {as bs : List (Ty N)} : FillsAll as bs → Fills (.function as) (.function bs)
  | other (binding : Option N) : Fills (.other binding) (.other binding)

inductive FillsAll : List (Ty N) → List (Ty N) → Prop
  | nil : FillsAll [] []
  | cons {a b : Ty N} {as bs : List (Ty N)} : Fills a b → FillsAll as bs → FillsAll (a :: as) (b :: bs)
end

omit [DecidableEq N] in
theorem Fills.refl (t : Ty N) : Fills t t := by
  induction t using Ty.rec (motive_2 := fun ts => FillsAll ts ts) with
  | declared n => exact .declared n
  | instantiation n as ih => exact .instantiation n ih
  | optional t ih => exact .optional ih
  | array t ih => exact .array ih
  | function as ih => exact .function ih
  | parameter m i => exact .parameter m i _
  | other binding => exact .other binding
  | nil => exact .nil
  | cons t ts ih ihs => exact .cons ih ihs

omit [DecidableEq N] in
theorem FillsAll.getD {as bs : List (Ty N)} (h : FillsAll as bs) (i : ℕ) (m : N) :
    Fills (as.getD i (.parameter m i)) (bs.getD i (.parameter m i)) := by
  suffices hsuff : ∀ j, Fills (as.getD j (.parameter m i)) (bs.getD j (.parameter m i)) from hsuff i
  intro j
  induction as generalizing bs j with
  | nil =>
    cases h
    exact .parameter m i _
  | cons a as ih =>
    cases h with
    | cons hab hrest =>
      cases j with
      | zero => simpa using hab
      | succ j => simpa using ih hrest j

theorem fills_substitute (n : N) (as : List (Ty N)) (t : Ty N) : Fills t (substitute n as t) := by
  induction t using Ty.rec (motive_2 := fun ts => FillsAll ts (substituteAll n as ts)) with
  | declared m => exact .declared m
  | instantiation m ts ih => exact .instantiation m ih
  | optional t ih => exact .optional ih
  | array t ih => exact .array ih
  | function ts ih => exact .function ih
  | parameter m i => exact .parameter m i _
  | other binding => exact .other binding
  | nil => exact .nil
  | cons t ts ih ihs => exact .cons ih ihs

theorem Fills.substitute {as bs : List (Ty N)} (h : FillsAll as bs) (n : N) (t : Ty N) :
    Fills (ValueCycles.substitute n as t) (ValueCycles.substitute n bs t) := by
  induction t using Ty.rec (motive_2 := fun ts => FillsAll (substituteAll n as ts) (substituteAll n bs ts)) with
  | declared m => exact .declared m
  | instantiation m ts ih => exact .instantiation m ih
  | optional t ih => exact .optional ih
  | array t ih => exact .array ih
  | function ts ih => exact .function ih
  | parameter m i =>
    rw [ValueCycles.substitute,ValueCycles.substitute]
    split
    · exact h.getD i m
    · exact .parameter m i _
  | other binding => exact .other binding
  | nil => exact .nil
  | cons t ts ih ihs => exact .cons ih ihs

omit [DecidableEq N] in
theorem Fills.authority {t u : Ty N} (h : Fills t u) {n : N} (hn : authorityOf t = some n) : authorityOf u = some n := by
  cases h with
  | parameter | optional | array | function => cases hn
  | bare | declared | instantiation | other => exact hn

omit [DecidableEq N] in
theorem Fills.byValue {t u v : Ty N} (h : Fills t u) (hv : P.byValueStruct t = some v) : ∃ w, P.byValueStruct u = some w ∧ Fills v w := by
  induction t using Ty.rec (motive_2 := fun _ => True) generalizing u with
  | declared n =>
    cases h with
    | bare _ as =>
      simp only [Program.byValueStruct] at hv ⊢
      split at hv
      · rename_i hn
        rw [if_pos hn]
        obtain rfl := Option.some.inj hv
        exact ⟨_,rfl,.bare n as⟩
      · cases hv
    | declared => exact ⟨v,hv,.refl v⟩
  | instantiation n as _ =>
    cases h with
    | instantiation _ hall =>
      simp only [Program.byValueStruct] at hv ⊢
      split at hv
      · rename_i hn
        rw [if_pos hn]
        obtain rfl := Option.some.inj hv
        exact ⟨_,rfl,.instantiation n hall⟩
      · cases hv
  | optional inner ih =>
    cases h with
    | optional hi =>
      obtain ⟨w,hw,hfills⟩ := ih hi hv
      exact ⟨w,hw,hfills⟩
  | array | function | parameter | other => cases hv
  | nil | cons => trivial

theorem Fills.fields {t u : Ty N} (h : Fills t u) {fields : List (Field N)} (hf : P.fieldsOf t = some fields) {f : Field N} (hmem : f ∈ fields) :
    ∃ fields', P.fieldsOf u = some fields' ∧ ∃ g ∈ fields', Fills f.type g.type := by
  cases h with
  | parameter | optional | array | function | other => cases hf
  | declared n => exact ⟨fields,hf,f,hmem,.refl _⟩
  | bare n as =>
    rw [Program.fieldsOf] at hf
    refine ⟨_,by rw [Program.fieldsOf,hf,Option.map_some],_,List.mem_map_of_mem hmem,fills_substitute n as f.type⟩
  | instantiation n hall =>
    rw [Program.fieldsOf] at hf
    obtain ⟨written,hw,rfl⟩ := Option.map_eq_some_iff.1 hf
    obtain ⟨g,hg,rfl⟩ := List.mem_map.1 hmem
    exact ⟨_,by rw [Program.fieldsOf,hw,Option.map_some],_,List.mem_map_of_mem hg,.substitute hall n g.type⟩

theorem Fills.holds {t u v : Ty N} (h : Fills t u) (hv : P.Holds t v) : ∃ w, P.Holds u w ∧ Fills v w := by
  obtain ⟨fields,f,hf,hmem,hby⟩ := hv
  obtain ⟨fields',hf',g,hg,hfg⟩ := h.fields hf hmem
  obtain ⟨w,hw,hvw⟩ := hfg.byValue hby
  exact ⟨w,⟨fields',g,hf',hg,hw⟩,hvw⟩

theorem Leads.of_reached {s t : N} {u : Ty N} (hu : P.Reached s u) (ht : authorityOf u = some t) {m n : N} (h : P.Leads t m n) :
    P.Leads s m n := by
  have hstart : Fills (.declared t) u := by
    cases ReflTransGen.cases_tail hu with
    | inl heq =>
      subst heq
      cases ht
      exact .declared _
    | inr hlast =>
      obtain ⟨v,-,fields,f,-,-,hby⟩ := hlast
      obtain ⟨n,-,rfl | ⟨arguments,rfl⟩⟩ := byValueStruct_struct hby
      · cases ht
        exact .declared _
      · cases ht
        exact .bare _ _
  have hfollow : ∀ v, P.Reached t v → ∃ w, P.Reached s w ∧ Fills v w := by
    intro v hv
    induction hv with
    | refl => exact ⟨u,hu,hstart⟩
    | tail _ hstep ih =>
      obtain ⟨w,hw,hfills⟩ := ih
      obtain ⟨w',hw',hfills'⟩ := hfills.holds hstep
      exact ⟨w',hw.tail hw',hfills'⟩
  obtain ⟨v,v',hv,hstep,hm,hn⟩ := h
  obtain ⟨w,hw,hfills⟩ := hfollow v hv
  obtain ⟨w',hw',hfills'⟩ := hfills.holds hstep
  exact ⟨w,w',hw,hw',hfills.authority hm,hfills'.authority hn⟩

/-! ### Groups -/

/-- A struct lies on a field path from another back to it. -/
def Program.Sees (P : Program N) (s t : N) : Prop := TransGen (P.Leads s) s t ∧ TransGen (P.Leads s) t s

/-- Two structs lie on field paths from each other back to it. -/
def Program.Group (P : Program N) (s t : N) : Prop := P.Sees s t ∧ P.Sees t s

variable {s t u : N}

theorem Program.Sees.self (h : P.Sees s t) : P.Sees s s := ⟨h.1.trans h.2,h.1.trans h.2⟩

theorem Program.Sees.sub (h : P.Sees s t) {m n : N} (hl : P.Leads t m n) : P.Leads s m n := by
  obtain ⟨k,-,v,w,hv,hw,-,ht⟩ := TransGen.tail'_iff.1 h.1
  exact Leads.of_reached (hv.tail hw) ht hl

theorem Program.Sees.isStruct (h : P.Sees s t) : P.isStruct t = true := by
  obtain ⟨k,-,v,w,-,hw,-,ht⟩ := TransGen.tail'_iff.1 h.1
  obtain ⟨n,hn,hstruct⟩ := hw.right
  cases hn.symm.trans ht
  exact hstruct

theorem Program.Sees.trans (h : P.Sees s t) (h' : P.Sees t u) : P.Sees s u :=
  ⟨h.1.trans (TransGen.mono (fun _ _ => h.sub) _ _ h'.1),(TransGen.mono (fun _ _ => h.sub) _ _ h'.2).trans h.2⟩

theorem Program.Group.symm (h : P.Group s t) : P.Group t s := ⟨h.2,h.1⟩

theorem Program.Group.trans (h : P.Group s t) (h' : P.Group t u) : P.Group s u := ⟨h.1.trans h'.1,h'.2.trans h.2⟩

/-! ### The structs reported from -/

theorem componentOf_sees (hall : Finite P all) (ho : P.isStruct origin = true) (hfuel : all.length < fuel) :
    ∃ found, P.componentOf fuel origin = some found ∧ (found.isSome = true ↔ P.Sees origin origin) ∧
      ∀ n, found.any (fun c => n ∈ c.structs) = true ↔ P.Sees origin n := by
  obtain ⟨found,hrun,hsome,hc⟩ := componentOf_ok hall ho hfuel
  refine ⟨found,hrun,hsome.trans (and_self_iff).symm,fun n => ?_⟩
  cases found with
  | none =>
    refine iff_of_false (by simp) fun h => ?_
    have := hsome.2 h.self.1
    cases this
  | some c => simpa [Program.Sees] using (hc c rfl).structs_iff n

theorem startsAmong_ok (hall : Finite P all) (hfuel : all.length < fuel) (start : N) (others : List N) :
    ∃ b, P.startsAmong fuel start others = some b ∧ (b = true ↔
      ∀ other ∈ others, other ≠ start → P.precedes other start = true → P.isStruct other = true → ¬ P.Sees other start) := by
  induction others with
  | nil => exact ⟨true,rfl,by simp⟩
  | cons other others ih =>
    obtain ⟨b,hb,hiff⟩ := ih
    rw [Program.startsAmong]
    split
    · rename_i hpass
      refine ⟨b,hb,hiff.trans ⟨fun h x hx => ?_,fun h x hx => h x (by simp [hx])⟩⟩
      rcases List.mem_cons.1 hx with rfl | hx
      · intro hne hp hs
        rcases hpass with rfl | hpass | hpass
        · exact absurd rfl hne
        · rw [hpass] at hp
          cases hp
        · rw [hpass] at hs
          cases hs
      · exact h x hx
    · rename_i hpass
      simp only [not_or,Bool.not_eq_false] at hpass
      obtain ⟨found,hrun,-,hsees⟩ := componentOf_sees hall hpass.2.2 hfuel
      rw [hrun]
      by_cases h : P.Sees other start
      · refine ⟨false,by simp [(hsees start).2 h],iff_of_false (by simp) fun hno => ?_⟩
        exact hno other (by simp) hpass.1 hpass.2.1 hpass.2.2 h
      · have hfalse : found.any (fun c => start ∈ c.structs) = false := Bool.eq_false_iff.2 fun ht => h ((hsees start).1 ht)
        refine ⟨b,by simpa [hfalse] using hb,hiff.trans ⟨fun hno x hx => ?_,fun hno x hx => hno x (by simp [hx])⟩⟩
        rcases List.mem_cons.1 hx with rfl | hx
        · exact fun _ _ _ => h
        · exact hno x hx

def Program.place (P : Program N) (n : N) : List Char ×ₗ ℕ := toLex (P.filePath n,P.declaredAt n)

theorem precedes_iff (m n : N) : P.precedes m n = true ↔ P.place m < P.place n := by
  unfold Program.precedes Program.place
  rw [Prod.Lex.toLex_lt_toLex]
  split
  · rename_i hne
    simp only [decide_eq_true_eq]
    exact ⟨.inl,fun h => h.resolve_right fun h => hne h.1⟩
  · rename_i heq
    rw [not_not] at heq
    simp [heq]

theorem reportedFrom_ok (hall : Finite P all) (hs : P.isStruct s = true) (hfuel : all.length < fuel) :
    ∃ b, P.reportedFrom fuel s = some b ∧ (b = true ↔ P.Sees s s ∧ ∀ t, P.Group s t → P.precedes t s = false) := by
  obtain ⟨found,hrun,hsome,hsees⟩ := componentOf_sees hall hs hfuel
  rw [Program.reportedFrom,hrun]
  cases found with
  | none => exact ⟨false,rfl,iff_of_false (by simp) fun h => by simpa using hsome.2 h.1⟩
  | some c =>
    obtain ⟨b,hb,hiff⟩ := startsAmong_ok hall hfuel s c.structs
    have hself : P.Sees s s := hsome.1 rfl
    refine ⟨b,hb,hiff.trans ⟨fun h => ⟨hself,fun t ht => ?_⟩,fun h t ht hne hp hst hback => ?_⟩⟩
    · refine Bool.eq_false_iff.2 fun hp => ?_
      refine h t (by simpa using (hsees t).2 ht.1) ?_ hp ht.1.isStruct ht.2
      rintro rfl
      exact lt_irrefl _ ((precedes_iff t t).1 hp)
    · rw [h.2 t ⟨(hsees t).1 (by simpa using ht),hback⟩] at hp
      cases hp

theorem group_reported (hall : Finite P all) (hfuel : all.length < fuel) (hs : P.isStruct s = true) (hself : P.Sees s s) :
    ∃ t, P.Group s t ∧ P.reportedFrom fuel t = some true ∧
      ∀ u, P.Group s u → P.reportedFrom fuel u = some true → P.place u = P.place t := by
  classical
  obtain ⟨found,-,hsome,hsees⟩ := componentOf_sees hall hs hfuel
  obtain ⟨c,rfl⟩ := Option.isSome_iff_exists.1 (hsome.2 hself)
  have hmem : ∀ t, P.Sees s t → t ∈ c.structs := fun t ht => by simpa using (hsees t).2 ht
  obtain ⟨t,ht,hfirst⟩ := (c.structs.toFinset.filter (P.Group s)).exists_min_image P.place
    ⟨s,by simpa using ⟨hmem s hself,hself,hself⟩⟩
  simp only [Finset.mem_filter,List.mem_toFinset] at ht hfirst
  have hleast : ∀ u, P.Group s u → P.place t ≤ P.place u := fun u hu => hfirst u ⟨hmem u hu.1,hu⟩
  obtain ⟨b,hb,hiff⟩ := reportedFrom_ok hall ht.2.1.isStruct hfuel
  refine ⟨t,ht.2,?_,fun u hu hrep => ?_⟩
  · rw [hb,hiff.2 ⟨ht.2.2.self,fun u hu => ?_⟩]
    refine Bool.eq_false_iff.2 fun hp => ?_
    exact absurd (hleast u (ht.2.trans hu)) (not_le.2 ((precedes_iff u t).1 hp))
  · obtain ⟨b',hb',hiff'⟩ := reportedFrom_ok hall hu.1.isStruct hfuel
    obtain rfl := Option.some.inj (hb'.symm.trans hrep)
    have hno := (hiff'.1 rfl).2 t (hu.symm.trans ht.2)
    have hnlt : ¬ P.place t < P.place u := fun hlt => by rw [(precedes_iff t u).2 hlt] at hno; cases hno
    exact le_antisymm (not_lt.1 hnlt) (hleast u hu)

/-! ### Breaking cycles -/

omit [DecidableEq N] in
theorem anyM_eq {f : N → Option Bool} {g : N → Bool} (l : List N) (h : ∀ x ∈ l, f x = some (g x)) : l.anyM f = some (l.any g) := by
  induction l with
  | nil => rfl
  | cons x l ih =>
    rw [List.anyM_cons,h x (by simp),List.any_cons]
    cases g x with
    | true => rfl
    | false => simpa using ih fun y hy => h y (by simp [hy])

omit [DecidableEq N] in
theorem findM_eq {f : N → Option Bool} {g : N → Bool} (l : List N) (h : ∀ x ∈ l, f x = some (g x)) : l.findM? f = some (l.find? g) := by
  induction l with
  | nil => rfl
  | cons x l ih =>
    rw [List.findM?,h x (by simp),List.find?_cons]
    cases g x with
    | true => rfl
    | false => simpa using ih fun y hy => h y (by simp [hy])

namespace Component
variable {c : Component N} {removed : List N} {start : N}

/-- A field that leads to a struct not removed. -/
def Onto (c : Component N) (removed : List N) (m n : N) : Prop := Linked c.edges m n ∧ n ∉ removed

/-- What the edges out of one struct add to those seen and those pending, or that one of them leads back. -/
def Follows (removed : List N) (start current : N) (edges : List (Edge N)) (seen pending : List N) : Option (List N × List N) → Prop
  | none => ∃ e ∈ edges, e.source = current ∧ e.target ∉ removed ∧ e.target = start
  | some (seen',pending') =>
    (∀ e ∈ edges, e.source = current → e.target ∉ removed → e.target ≠ start ∧ e.target ∈ seen') ∧
    seen ⊆ seen' ∧ pending ⊆ pending' ∧ (∀ x ∈ seen', x ∈ seen ∨ x ∈ pending') ∧
    (∀ x ∈ pending', x ∈ pending ∨ ∃ e ∈ edges, e.source = current ∧ e.target ∉ removed ∧ e.target = x) ∧
    ∀ T : Finset N, (∀ e ∈ edges, e.target ∈ T) →
      pending'.length + (T \ seen'.toFinset).card ≤ pending.length + (T \ seen.toFinset).card

theorem Follows.pass {e : Edge N} {edges : List (Edge N)} {current : N} {seen pending : List N} {looked : Option (List N × List N)}
    (h : Follows removed start current edges seen pending looked)
    (he : e.source = current → e.target ∉ removed → e.target ≠ start ∧ e.target ∈ seen) :
    Follows removed start current (e :: edges) seen pending looked := by
  match looked, h with
  | none, ⟨e',he',hsame⟩ => exact ⟨e',by simp [he'],hsame⟩
  | some (seen',pending'), ⟨h1,h2,h3,h4,h5,h6⟩ =>
    refine ⟨fun e' he' hs ht => ?_,h2,h3,h4,fun x hx => ?_,fun T hT => h6 T fun e' he' => hT e' (by simp [he'])⟩
    · rcases List.mem_cons.1 he' with rfl | he'
      · exact ⟨(he hs ht).1,h2 (he hs ht).2⟩
      · exact h1 e' he' hs ht
    · rcases h5 x hx with hx | ⟨e',he',hsame⟩
      · exact .inl hx
      · exact .inr ⟨e',by simp [he'],hsame⟩

theorem Follows.push {e : Edge N} {edges : List (Edge N)} {seen pending : List N} {looked : Option (List N × List N)}
    (h : Follows removed start e.source edges (e.target :: seen) (e.target :: pending) looked)
    (hout : e.target ∉ removed) (hback : e.target ≠ start) (hseen : e.target ∉ seen) :
    Follows removed start e.source (e :: edges) seen pending looked := by
  match looked, h with
  | none, ⟨e',he',hsame⟩ => exact ⟨e',by simp [he'],hsame⟩
  | some (seen',pending'), ⟨h1,h2,h3,h4,h5,h6⟩ =>
    refine ⟨fun e' he' hs ht => ?_,fun x hx => h2 (by simp [hx]),fun x hx => h3 (by simp [hx]),fun x hx => ?_,fun x hx => ?_,fun T hT => ?_⟩
    · rcases List.mem_cons.1 he' with rfl | he'
      · exact ⟨hback,h2 (by simp)⟩
      · exact h1 e' he' hs ht
    · rcases h4 x hx with hx | hx
      · rcases List.mem_cons.1 hx with rfl | hx
        · exact .inr (h3 (by simp))
        · exact .inl hx
      · exact .inr hx
    · rcases h5 x hx with hx | ⟨e',he',hsame⟩
      · rcases List.mem_cons.1 hx with rfl | hx
        · exact .inr ⟨e,by simp,rfl,hout,rfl⟩
        · exact .inl hx
      · exact .inr ⟨e',by simp [he'],hsame⟩
    · have hbound := h6 T fun e' he' => hT e' (by simp [he'])
      have hfewer : (T \ (e.target :: seen).toFinset).card < (T \ seen.toFinset).card := by
        refine Finset.card_lt_card (Finset.ssubset_iff_of_subset ?_ |>.2 ⟨e.target,?_,?_⟩)
        · intro x hx
          simp only [Finset.mem_sdiff,List.mem_toFinset,List.mem_cons,not_or] at hx ⊢
          exact ⟨hx.1,hx.2.2⟩
        · simp [hT e (by simp),hseen]
        · simp
      rw [List.length_cons] at hbound
      omega

theorem followOut_spec (edges : List (Edge N)) (current : N) (seen pending : List N) :
    Follows removed start current edges seen pending (followOut removed start current edges (seen,pending)) := by
  induction edges generalizing seen pending with
  | nil => exact ⟨by simp,List.Subset.refl _,List.Subset.refl _,fun x hx => .inl hx,fun x hx => .inl hx,fun _ _ => le_rfl⟩
  | cons e edges ih =>
    rw [followOut]
    split_ifs with hskip hback hseen
    · exact (ih seen pending).pass fun hs ht => absurd hskip (not_or.2 ⟨not_not.2 hs,ht⟩)
    · simp only [not_or,not_not] at hskip
      exact ⟨e,by simp,hskip.1,hskip.2,hback⟩
    · exact (ih seen pending).pass fun _ _ => ⟨hback,hseen⟩
    · simp only [not_or,not_not] at hskip
      obtain ⟨rfl,hout⟩ := hskip
      exact (ih (e.target :: seen) (e.target :: pending)).push hout hback hseen

structure Searched (c : Component N) (removed : List N) (start : N) (seen pending : List N) : Prop where
  reach : ∀ x ∈ pending, ReflTransGen (c.Onto removed) start x
  closed : ∀ x, x = start ∨ x ∈ seen → x ∈ pending ∨ ∀ y, c.Onto removed x y → y ≠ start ∧ y ∈ seen

theorem search_ok {seen pending : List N} (h : Searched c removed start seen pending) {fuel : ℕ}
    (hfuel : pending.length + ((c.edges.map Edge.target).toFinset \ seen.toFinset).card < fuel) :
    ∃ b, c.search removed start fuel (seen,pending) = some b ∧ (b = true ↔ TransGen (c.Onto removed) start start) := by
  induction fuel generalizing seen pending with
  | zero => omega
  | succ fuel ih =>
    cases pending with
    | nil =>
      refine ⟨false,rfl,iff_of_false (by simp) fun hcycle => ?_⟩
      have hclosed : ∀ x, ReflTransGen (c.Onto removed) start x → x = start ∨ x ∈ seen := by
        intro x hx
        induction hx with
        | refl => exact .inl rfl
        | tail _ hstep ih => exact .inr (((h.closed _ ih).resolve_left (by simp)) _ hstep).2
      obtain ⟨x,hx,hlast⟩ := TransGen.tail'_iff.1 hcycle
      exact (((h.closed x (hclosed x hx)).resolve_left (by simp)) start hlast).1 rfl
    | cons current pending =>
      rw [search]
      have hspec := @followOut_spec N _ removed start c.edges current seen pending
      cases hrun : followOut removed start current c.edges (seen,pending) with
      | none =>
        rw [hrun] at hspec
        obtain ⟨e,he,rfl,hout,rfl⟩ := hspec
        exact ⟨true,rfl,iff_of_true rfl (TransGen.tail' (h.reach _ (by simp)) ⟨⟨e,he,rfl,rfl⟩,hout⟩)⟩
      | some looked =>
        obtain ⟨seen',pending'⟩ := looked
        rw [hrun] at hspec
        obtain ⟨h1,h2,h3,h4,h5,h6⟩ := hspec
        refine ih ⟨fun x hx => ?_,fun x hx => ?_⟩ ?_
        · rcases h5 x hx with hx | ⟨e,he,rfl,hout,rfl⟩
          · exact h.reach x (by simp [hx])
          · exact (h.reach _ (by simp)).tail ⟨⟨e,he,rfl,rfl⟩,hout⟩
        · have hold : x = start ∨ x ∈ seen → x ∈ pending' ∨ ∀ y, c.Onto removed x y → y ≠ start ∧ y ∈ seen' := by
            intro hx
            rcases h.closed x hx with hx | hx
            · rcases List.mem_cons.1 hx with rfl | hx
              · right
                rintro y ⟨⟨e,he,hs,rfl⟩,hout⟩
                exact h1 e he hs hout
              · exact .inl (h3 hx)
            · exact .inr fun y hy => ⟨(hx y hy).1,h2 (hx y hy).2⟩
          rcases hx with hx | hx
          · exact hold (.inl hx)
          · rcases h4 x hx with hx | hx
            · exact hold (.inr hx)
            · exact .inl hx
        · have hbound := h6 (c.edges.map Edge.target).toFinset fun e he => by simpa using ⟨e,he,rfl⟩
          rw [List.length_cons] at hfuel
          omega

open Classical in
theorem onCycleWithout_eq (c : Component N) (start : N) (removed : List N) :
    c.onCycleWithout start removed = some (decide (TransGen (c.Onto removed) start start)) := by
  have hbegin : Searched c removed start [] [start] := ⟨by simp [ReflTransGen.refl],by simp⟩
  have hsub := Finset.card_le_card (Finset.sdiff_subset (s := (c.edges.map Edge.target).toFinset) (t := ([] : List N).toFinset))
  have hlen := List.toFinset_card_le (c.edges.map Edge.target)
  rw [List.length_map] at hlen
  obtain ⟨b,hb,hiff⟩ := search_ok hbegin (show _ < c.edges.length + 2 by simp at hsub ⊢; omega)
  rw [onCycleWithout,hb]
  exact congrArg some (Bool.eq_iff_iff.2 (hiff.trans decide_eq_true_iff.symm))

/-- A struct that is not removed is on a cycle of those that are not. -/
def Cyclic (c : Component N) (removed : List N) (n : N) : Prop := n ∉ removed ∧ TransGen (c.Onto removed) n n

open Classical in
theorem cyclicWithout_eq (c : Component N) (removed : List N) (n : N) :
    (if n ∈ removed then some false else c.onCycleWithout n removed) = some (decide (c.Cyclic removed n)) := by
  unfold Cyclic
  split
  · rename_i hn
    simp [hn]
  · rename_i hn
    rw [onCycleWithout_eq]
    simp [hn]

open Classical in
theorem hasCycleWithout_eq (c : Component N) (removed : List N) :
    c.hasCycleWithout removed = some (decide (∃ n ∈ c.structs, c.Cyclic removed n)) := by
  rw [hasCycleWithout,anyM_eq c.structs fun n _ => cyclicWithout_eq c removed n]
  congr 1
  rw [Bool.eq_iff_iff]
  simp

omit [DecidableEq N] in
theorem mem_sortedStructs (before : N → N → Bool) (c : Component N) (n : N) : n ∈ c.sortedStructs before ↔ n ∈ c.structs := by
  have hinsert : ∀ (x : N) (sorted : List N), n ∈ insertSorted before x sorted ↔ n = x ∨ n ∈ sorted := by
    intro x sorted
    have hsplit : n ∈ sorted.takeWhile (before · x) ++ sorted.dropWhile (before · x) ↔ n ∈ sorted := by
      rw [List.takeWhile_append_dropWhile]
    rw [← hsplit]
    simp only [insertSorted,List.mem_append,List.mem_cons]
    exact or_left_comm
  have hfold : ∀ (structs sorted : List N),
      n ∈ structs.foldl (fun sorted candidate => insertSorted before candidate sorted) sorted ↔ n ∈ sorted ∨ n ∈ structs := by
    intro structs
    induction structs with
    | nil => simp
    | cons x structs ih =>
      intro sorted
      rw [List.foldl_cons,ih,hinsert,List.mem_cons,or_assoc,or_left_comm]
  rw [sortedStructs,hfold]
  simp

theorem breakRounds_ok {ordered : List N} (hordered : ∀ n, n ∈ ordered ↔ n ∈ c.structs) {fuel : ℕ} (hin : ∀ n ∈ removed, n ∈ c.structs)
    (hfuel : (c.structs.toFinset \ removed.toFinset).card < fuel) :
    ∃ final, c.breakRounds ordered fuel removed = some final ∧ (∀ n ∈ final, n ∈ c.structs) ∧ ∀ n ∈ c.structs, ¬ c.Cyclic final n := by
  classical
  induction fuel generalizing removed with
  | zero => omega
  | succ fuel ih =>
    rw [breakRounds,hasCycleWithout_eq]
    by_cases hcycle : ∃ n ∈ c.structs, c.Cyclic removed n
    · rw [findM_eq ordered fun n _ => cyclicWithout_eq c removed n]
      obtain ⟨n,hn,hon⟩ := hcycle
      have hsome : (ordered.find? fun n => decide (c.Cyclic removed n)).isSome = true :=
        List.find?_isSome.2 ⟨n,(hordered n).2 hn,by simpa using hon⟩
      obtain ⟨candidate,hfind⟩ := Option.isSome_iff_exists.1 hsome
      have hmem := (hordered candidate).1 (List.mem_of_find?_eq_some hfind)
      have hnew : candidate ∉ removed := by
        have := List.find?_some hfind
        exact (decide_eq_true_iff.1 this).1
      have hfewer : (c.structs.toFinset \ (removed ++ [candidate]).toFinset).card < (c.structs.toFinset \ removed.toFinset).card := by
        refine Finset.card_lt_card (Finset.ssubset_iff_of_subset ?_ |>.2 ⟨candidate,?_,?_⟩)
        · intro x hx
          simp only [Finset.mem_sdiff,List.mem_toFinset,List.mem_append,not_or] at hx ⊢
          exact ⟨hx.1,hx.2.1⟩
        · simp [hmem,hnew]
        · simp
      have hinside : ∀ n ∈ removed ++ [candidate], n ∈ c.structs := by
        intro n hn
        rcases List.mem_append.1 hn with hn | hn
        · exact hin n hn
        · rw [List.mem_singleton.1 hn]
          exact hmem
      obtain ⟨final,hrun,hfinal⟩ := ih hinside (by omega)
      refine ⟨final,?_,hfinal⟩
      rw [hfind]
      simpa [show ∃ n ∈ c.structs, c.Cyclic removed n from ⟨n,hn,hon⟩] using hrun
    · refine ⟨removed,by simp [hcycle],hin,fun n hn hon => hcycle ⟨n,hn,hon⟩⟩

theorem breakingStructs_ok (before : N → N → Bool) (c : Component N) :
    ∃ removed, c.breakingStructs before = some removed ∧ (∀ n ∈ removed, n ∈ c.structs) ∧ ∀ n ∈ c.structs, ¬ c.Cyclic removed n := by
  classical
  have hordered := fun n => mem_sortedStructs before c n
  have hfirst : ∀ n ∈ c.sortedStructs before, (c.hasCycleWithout [n]).map (!·) = some (!decide (∃ m ∈ c.structs, c.Cyclic [n] m)) := by
    intro n _
    rw [hasCycleWithout_eq]
    rfl
  rw [breakingStructs]
  simp only [findM_eq _ hfirst]
  cases hfind : (c.sortedStructs before).find? fun n => !decide (∃ m ∈ c.structs, c.Cyclic [n] m) with
  | some candidate =>
    have hnone := List.find?_some hfind
    simp only [Bool.not_eq_true',decide_eq_false_iff_not] at hnone
    refine ⟨[candidate],rfl,fun n hn => ?_,fun n hn hon => hnone ⟨n,hn,hon⟩⟩
    rw [List.mem_singleton.1 hn]
    exact (hordered _).1 (List.mem_of_find?_eq_some hfind)
  | none =>
    refine breakRounds_ok hordered (by simp) ?_
    have hsub : (c.structs.toFinset \ ([] : List N).toFinset).card ≤ c.structs.toFinset.card := Finset.card_le_card Finset.sdiff_subset
    exact Nat.lt_succ_of_le (hsub.trans (List.toFinset_card_le c.structs))

end Component

/-- A field that leads from a struct kept to a struct kept. -/
def Component.Kept (c : Component N) (removed : List N) (m n : N) : Prop := Linked c.edges m n ∧ m ∉ removed ∧ n ∉ removed

def nested : Program ℕ where
  isStruct n := n < 3
  fields
    | 0 => some [⟨['w'],.instantiation 2 [.declared 0],5⟩,⟨['b'],.declared 1,9⟩]
    | 1 => some [⟨['w'],.instantiation 2 [.declared 1],30⟩]
    | 2 => some [⟨['v'],.parameter 2 0,50⟩]
    | _ => none
  filePath _ := []

theorem nested_finite : Finite nested [.declared 0,.declared 1,.declared 2,.instantiation 2 [.declared 0],.instantiation 2 [.declared 1]] where
  start n hn := by
    have hlt : n < 3 := by simpa [nested] using hn
    have hcases : n = 0 ∨ n = 1 ∨ n = 2 := by omega
    rcases hcases with rfl | rfl | rfl <;> simp
  closed := by
    have hfields : ∀ t ∈ ([.declared 0,.declared 1,.declared 2,.instantiation 2 [.declared 0],.instantiation 2 [.declared 1]] : List (Ty ℕ)),
        ∀ f ∈ (nested.fieldsOf t).getD [], ∀ u ∈ nested.byValueStruct f.type,
          u ∈ ([.declared 0,.declared 1,.declared 2,.instantiation 2 [.declared 0],.instantiation 2 [.declared 1]] : List (Ty ℕ)) := by decide
    rintro t ht u ⟨fields,f,hf,hmem,hu⟩
    exact hfields t ht f (by rw [hf]; exact hmem) u hu

theorem nested_sees : nested.Sees 0 1 := by
  obtain ⟨found,hrun,-,hsees⟩ := componentOf_sees nested_finite (show nested.isStruct 0 = true from rfl) (show _ < 10 by decide)
  have hany : (nested.componentOf 10 0).map (·.any fun c => 1 ∈ c.structs) = some true := by decide
  rw [hrun,Option.map_some] at hany
  exact (hsees 1).1 (Option.some.inj hany)

end Ens.ValueCycles
