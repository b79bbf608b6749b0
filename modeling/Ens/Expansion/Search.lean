import Mathlib.Data.List.Basic
import Mathlib.Data.List.Nodup
import Mathlib.Data.List.Perm.Subperm

/-! # Uses of generics that grow

A use of a generic inside another leads each type parameter of the one it is written in to a parameter of the one it uses. A
parameter that comes back to itself larger needs ever larger instantiations.
-/
set_option linter.all false
namespace Ens.Expansion
variable {O : Type} [DecidableEq O]

/-- A type as far as it mentions type parameters, each the parameter at an index of a declaration. -/
inductive Ty (O : Type)
  | param (owner : O) (index : ℕ)
  | optional (inner : Ty O)
  | array (element : Ty O)
  | function (parameterTypes : List (Ty O)) (returnType : Ty O) (thrownTypes : List (Ty O))
  | instantiation (template : O) (arguments : List (Ty O))
  | other

mutual

/-- Every type parameter inside a type, each once. -/
def collectAllParameters : Ty O → List (O × ℕ) → List (O × ℕ)
  | .param owner index, found => if (owner,index) ∈ found then found else found ++ [(owner,index)]
  | .optional inner, found => collectAllParameters inner found
  | .array element, found => collectAllParameters element found
  | .function parameters returned thrown, found =>
    collectEach thrown (collectAllParameters returned (collectEach parameters found))
  | .instantiation _ arguments, found => collectEach arguments found
  | .other, found => found

def collectEach : List (Ty O) → List (O × ℕ) → List (O × ℕ)
  | [], found => found
  | t :: ts, found => collectEach ts (collectAllParameters t found)

end

structure Origin where
  file : List Char
  start : ℕ
  deriving DecidableEq

structure GenericUse (O : Type) where
  target : O
  arguments : List (Ty O)
  origin : Origin

/-- A type parameter leading to a parameter of the generic that is used. It grows when the argument wraps it. -/
structure UseEdge (O : Type) where
  source : O × ℕ
  target : O × ℕ
  grows : Bool
  origin : Origin
  deriving DecidableEq

def Ty.passes : Ty O → Bool
  | .param _ _ => true
  | _ => false

def GenericUse.edges (use : GenericUse O) : List (UseEdge O) :=
  use.arguments.zipIdx.flatMap fun (argument,i) =>
    (collectAllParameters argument []).map fun p => ⟨p,(use.target,i),!argument.passes,use.origin⟩

def edgesOf (uses : List (GenericUse O)) : List (UseEdge O) := uses.flatMap GenericUse.edges

def edgeKey (e : UseEdge O) : Origin × ℕ × ℕ := (e.origin,e.target.2,e.source.2)

abbrev Pending (O : Type) := List (UseEdge O × Option ℕ)

variable (edges : List (UseEdge O))

/-- The edges from a parameter whose keys are not seen yet, at the end of the pending ones. -/
def pushFrom (node : O × ℕ) (parent : Option ℕ) (pending : Pending O) : Pending O :=
  edges.foldl (fun pending next =>
    if next.source = node ∧ edgeKey next ∉ pending.map fun p => edgeKey p.1 then pending ++ [(next,parent)] else pending) pending

def walkBack (pending : Pending O) : ℕ → ℕ → List (UseEdge O)
  | 0, _ => []
  | n + 1, i => match pending[i]? with
    | none => []
    | some (e,none) => [e]
    | some (e,some parent) => walkBack pending n parent ++ [e]

def searchFrom (goal : O × ℕ) : ℕ → ℕ → Pending O → Option (List (UseEdge O))
  | 0, _, _ => none
  | n + 1, i, pending => match pending[i]? with
    | none => none
    | some (current,_) =>
      if current.target = goal then some (walkBack pending (i + 1) i)
      else searchFrom goal n (i + 1) (pushFrom edges current.target (some i) pending)

/-- The edges from where an edge leads back to the type parameter it starts from, none where none lead back. The search comes
upon no more edges than there are. -/
def pathBack (edge : UseEdge O) : Option (List (UseEdge O)) :=
  if edge.source = edge.target then some []
  else searchFrom edges edge.source (edges.length + 1) 0 (pushFrom edges edge.target none [])

/-- The places that have a report, and each report as the edge and the path back it is written from. -/
abbrev Reports (O : Type) := List Origin × List (UseEdge O × List (UseEdge O))

def reportEdge (r : Reports O) (edge : UseEdge O) : Reports O :=
  if !edge.grows then r
  else if edge.origin ∈ r.1 then r
  else match pathBack edges edge with
    | none => r
    | some back => (r.1 ++ [edge.origin],r.2 ++ [(edge,back)])

def endlessUseDiagnostics (uses : List (GenericUse O)) (alreadyReported : List Origin) : List (UseEdge O × List (UseEdge O)) :=
  ((edgesOf uses).foldl (reportEdge (edgesOf uses)) (alreadyReported,[])).2

end Ens.Expansion

/-! ## The search for a cycle

A search keeps the edges it has come upon in the order it came upon them, each after one it follows. What it returns is a path, and
where the keys of the edges it can come upon tell where they lead it comes upon everything that can be reached.
-/
namespace Ens.Expansion
variable {O : Type} [DecidableEq O] {edges path path' : List (UseEdge O)} {e g h : UseEdge O} {a b c node goal : O × ℕ}
variable {pending : Pending O} {parent : Option ℕ} {i j n : ℕ}

def IsPath (edges : List (UseEdge O)) (a : O × ℕ) : List (UseEdge O) → O × ℕ → Prop
  | [], b => a = b
  | e :: path, b => e ∈ edges ∧ e.source = a ∧ IsPath edges e.target path b

def Reaches (edges : List (UseEdge O)) (a b : O × ℕ) : Prop := ∃ path, IsPath edges a path b

/-- The edge lies on a cycle of edges. -/
def OnCycle (edges : List (UseEdge O)) (e : UseEdge O) : Prop := Reaches edges e.target e.source

omit [DecidableEq O] in
theorem IsPath.append (h : IsPath edges a path b) (h' : IsPath edges b path' c) : IsPath edges a (path ++ path') c := by
  induction path generalizing a with
  | nil =>
    cases h
    exact h'
  | cons e path ih => exact ⟨h.1,h.2.1,ih h.2.2⟩

omit [DecidableEq O] in
theorem IsPath.snoc (h : IsPath edges a path e.source) (he : e ∈ edges) : IsPath edges a (path ++ [e]) e.target :=
  h.append ⟨he,rfl,rfl⟩

/-! ### What one round adds -/

def keys (pending : Pending O) : List (Origin × ℕ × ℕ) := pending.map fun p => edgeKey p.1

omit [DecidableEq O] in
theorem keys_append {more : Pending O} : keys (pending ++ more) = keys pending ++ keys more := List.map_append

/-- The edges pushed are edges from the node, no key comes twice, and every edge from the node has its key there. -/
theorem pushFrom_spec (edges : List (UseEdge O)) (node : O × ℕ) (parent : Option ℕ) (hn : (keys pending).Nodup) : ∃ more, pushFrom edges node parent pending = pending ++ more ∧
    (∀ p ∈ more, p.1 ∈ edges ∧ p.1.source = node ∧ p.2 = parent) ∧ (keys (pending ++ more)).Nodup ∧
      ∀ g ∈ edges, g.source = node → edgeKey g ∈ keys (pending ++ more) := by
  suffices hall : ∀ rest ⊆ edges, ∀ pending : Pending O, (keys pending).Nodup → ∃ more,
      pushFrom rest node parent pending = pending ++ more ∧
      (∀ p ∈ more, p.1 ∈ edges ∧ p.1.source = node ∧ p.2 = parent) ∧ (keys (pending ++ more)).Nodup ∧
        ∀ g ∈ rest, g.source = node → edgeKey g ∈ keys (pending ++ more) from hall edges (List.Subset.refl _) pending hn
  intro rest
  induction rest with
  | nil => exact fun _ pending hn => ⟨[],(List.append_nil _).symm,nofun,by rwa [List.append_nil],nofun⟩
  | cons next rest ih =>
    intro hsub pending hn
    have hrest : rest ⊆ edges := fun x hx => hsub (List.mem_cons_of_mem next hx)
    by_cases hnew : next.source = node ∧ edgeKey next ∉ keys pending
    · have hn' : (keys (pending ++ [(next,parent)])).Nodup := by
        rw [keys_append]
        refine List.nodup_append.mpr ⟨hn,List.nodup_singleton _,fun k hk l hl hkl => hnew.2 ?_⟩
        have hl' : l = edgeKey next := List.mem_singleton.mp hl
        rwa [← hl',← hkl]
      obtain ⟨more,heq,hmore,hnodup,hkeys⟩ := ih hrest _ hn'
      refine ⟨(next,parent) :: more,?_,?_,?_,?_⟩
      · rw [pushFrom,List.foldl_cons]
        exact (congrArg _ (if_pos hnew)).trans <| heq.trans (List.append_assoc ..)
      · exact List.forall_mem_cons.mpr ⟨⟨hsub List.mem_cons_self,hnew.1,rfl⟩,hmore⟩
      · rwa [List.append_assoc] at hnodup
      · rw [List.append_assoc] at hkeys
        refine List.forall_mem_cons.mpr ⟨fun _ => ?_,hkeys⟩
        exact List.mem_map.mpr ⟨(next,parent),List.mem_append_right _ List.mem_cons_self,rfl⟩
    · obtain ⟨more,heq,hmore,hnodup,hkeys⟩ := ih hrest pending hn
      refine ⟨more,?_,hmore,hnodup,List.forall_mem_cons.mpr ⟨fun hs => ?_,hkeys⟩⟩
      · rw [pushFrom,List.foldl_cons]
        exact (congrArg _ (if_neg hnew)).trans heq
      · rw [keys_append]
        exact List.mem_append_left _ (not_not.mp fun hk => hnew ⟨hs,hk⟩)

/-! ### A search under way -/

structure Searching (edges : List (UseEdge O)) (start goal : O × ℕ) (i : ℕ) (pending : Pending O) : Prop where
  edge : ∀ (j : ℕ) (p : UseEdge O × Option ℕ), pending[j]? = some p → p.1 ∈ edges
  first : ∀ (j : ℕ) (e : UseEdge O), pending[j]? = some (e,none) → e.source = start
  next : ∀ (j : ℕ) (e : UseEdge O) (k : ℕ), pending[j]? = some (e,some k) →
    k < j ∧ k < i ∧ ∃ p : UseEdge O × Option ℕ, pending[k]? = some p ∧ e.source = p.1.target
  nodup : (keys pending).Nodup
  within : i ≤ pending.length
  opened : ∀ g ∈ edges, g.source = start → edgeKey g ∈ keys pending
  closed : ∀ j < i, ∀ p : UseEdge O × Option ℕ, pending[j]? = some p →
    p.1.target ≠ goal ∧ ∀ g ∈ edges, g.source = p.1.target → edgeKey g ∈ keys pending

variable {start : O × ℕ}

theorem searching_start (edges : List (UseEdge O)) (start goal : O × ℕ) : Searching edges start goal 0 (pushFrom edges start none []) := by
  obtain ⟨more,heq,hmore,hnodup,hkeys⟩ := pushFrom_spec edges start none (show (keys []).Nodup from List.nodup_nil)
  rw [heq]
  refine ⟨fun j p hp => (hmore p (List.mem_of_getElem? hp)).1,fun j e he => (hmore _ (List.mem_of_getElem? he)).2.1,fun j e k he => ?_,
    hnodup,Nat.zero_le _,hkeys,fun j hj => absurd hj (Nat.not_lt_zero j)⟩
  exact absurd (hmore _ (List.mem_of_getElem? he)).2.2 nofun

theorem Searching.round {p : UseEdge O × Option ℕ} (h : Searching edges start goal i pending) (hp : pending[i]? = some p)
    (hgoal : p.1.target ≠ goal) : Searching edges start goal (i + 1) (pushFrom edges p.1.target (some i) pending) := by
  obtain ⟨more,heq,hmore,hnodup,hkeys⟩ := pushFrom_spec edges p.1.target (some i) h.nodup
  rw [heq]
  have hold : ∀ j q, pending[j]? = some q → (pending ++ more)[j]? = some q := fun j q hq => by
    rw [List.getElem?_append_left (List.getElem?_eq_some_iff.mp hq).1,hq]
  have hsplit : ∀ j q, (pending ++ more)[j]? = some q → pending[j]? = some q ∨ pending.length ≤ j ∧ q ∈ more := by
    intro j q hq
    rcases Nat.lt_or_ge j pending.length with hj | hj
    · exact .inl (by rwa [List.getElem?_append_left hj] at hq)
    · rw [List.getElem?_append_right hj] at hq
      exact .inr ⟨hj,List.mem_of_getElem? hq⟩
  have hi : i < pending.length := (List.getElem?_eq_some_iff.mp hp).1
  have hgrow : ∀ k ∈ keys pending, k ∈ keys (pending ++ more) := fun k hk => keys_append ▸ List.mem_append_left _ hk
  refine ⟨fun j q hq => ?_,fun j e he => ?_,fun j e k he => ?_,hnodup,?_,fun g hg hs => hgrow _ (h.opened g hg hs),fun j hj q hq => ?_⟩
  · rcases hsplit j q hq with hq | ⟨-,hq⟩
    · exact h.edge j q hq
    · exact (hmore q hq).1
  · rcases hsplit j _ he with he | ⟨-,he⟩
    · exact h.first j e he
    · exact absurd (hmore _ he).2.2 nofun
  · rcases hsplit j _ he with he | ⟨hj,he⟩
    · obtain ⟨hkj,hki,q,hq,hs⟩ := h.next j e k he
      exact ⟨hkj,Nat.lt_succ_of_lt hki,q,hold k q hq,hs⟩
    · obtain ⟨-,hs,hk⟩ := hmore _ he
      cases hk
      exact ⟨Nat.lt_of_lt_of_le hi hj,Nat.lt_succ_self _,p,hold _ p hp,hs⟩
  · rw [List.length_append]
    omega
  · rcases Nat.lt_succ_iff_lt_or_eq.mp hj with hj | rfl
    · have hq' : pending[j]? = some q := (hsplit j q hq).resolve_right fun hr => by omega
      exact ⟨(h.closed j hj q hq').1,fun g hg hs => hgrow _ ((h.closed j hj q hq').2 g hg hs)⟩
    · cases (hold j p hp).symm.trans hq
      exact ⟨hgoal,hkeys⟩

omit [DecidableEq O] in
/-- What is rebuilt from an edge is a path to where the edge leads. -/
theorem Searching.walkBack (h : Searching edges start goal i pending) {p : UseEdge O × Option ℕ} (hp : pending[j]? = some p) (hn : j < n) :
    IsPath edges start (walkBack pending n j) p.1.target := by
  induction n generalizing j p with
  | zero => exact absurd hn (Nat.not_lt_zero j)
  | succ n ih =>
    obtain ⟨e,parent⟩ := p
    have he : e ∈ edges := h.edge j _ hp
    rw [Expansion.walkBack,hp]
    cases parent with
    | none => exact ⟨he,h.first j e hp,rfl⟩
    | some k =>
      obtain ⟨hk,-,q,hq,hs⟩ := h.next j e k hp
      exact IsPath.snoc (hs ▸ ih hq (by omega)) he

omit [DecidableEq O] in
theorem Searching.length_le (h : Searching edges start goal i pending) : pending.length ≤ edges.length := by
  have hsub : keys pending ⊆ edges.map edgeKey := by
    intro k hk
    obtain ⟨p,hp,rfl⟩ := List.mem_map.mp hk
    obtain ⟨j,hj⟩ := List.getElem?_of_mem hp
    exact List.mem_map_of_mem (h.edge j p hj)
  have hle := (List.subperm_of_subset h.nodup hsub).length_le
  rwa [keys,List.length_map,List.length_map] at hle

/-- A search returns a path to its goal, or it has looked past every edge it came upon. -/
theorem Searching.search (h : Searching edges start goal i pending) (hn : edges.length < n + i) :
    (∃ path, searchFrom edges goal n i pending = some path ∧ IsPath edges start path goal) ∨
      searchFrom edges goal n i pending = none ∧ ∃ all, Searching edges start goal all.length all := by
  induction n generalizing i pending with
  | zero => exact absurd (Nat.le_trans h.within h.length_le) (by omega)
  | succ n ih =>
    rw [searchFrom]
    cases hp : pending[i]? with
    | none =>
      have hlen : i = pending.length := Nat.le_antisymm h.within (List.getElem?_eq_none_iff.mp hp)
      exact .inr ⟨rfl,pending,hlen ▸ h⟩
    | some p =>
      dsimp only
      split_ifs with hgoal
      · exact .inl ⟨_,rfl,hgoal ▸ h.walkBack hp (Nat.lt_succ_self i)⟩
      · exact ih (h.round hp hgoal) (by omega)

end Ens.Expansion
