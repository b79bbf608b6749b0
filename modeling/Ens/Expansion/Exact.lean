import Ens.Expansion.Search

/-! # Where growth is reported

A report has a place of its own and a path that closes its cycle. Every growing edge on a cycle has a report at its place when the
key of an edge tells where the edge leads.
-/
namespace Ens.Expansion
variable {O : Type} [DecidableEq O] {edges : List (UseEdge O)} {e : UseEdge O} {a b start goal : O × ℕ} {pending : Pending O} {i : ℕ}

/-- The parameters that edges lead to on the way to a goal. -/
inductive Ahead (edges : List (UseEdge O)) (start goal : O × ℕ) : O × ℕ → Prop
  | start : Ahead edges start goal start
  | next {e : UseEdge O} : Ahead edges start goal e.source → e ∈ edges → e.target ≠ goal → Ahead edges start goal e.target

/-- On the way along a cycle, edges that have one key lead to one parameter. -/
def Telling (edges : List (UseEdge O)) : Prop :=
  ∀ e ∈ edges, OnCycle edges e → ∀ g ∈ edges, ∀ h ∈ edges, Ahead edges e.target e.source g.source →
    Ahead edges e.target e.source h.source → edgeKey g = edgeKey h → g.target = h.target

/-! ### Paths back -/

omit [DecidableEq O] in
theorem Searching.ahead (h : Searching edges start goal i pending) {j : ℕ} {p : UseEdge O × Option ℕ} (hp : pending[j]? = some p) :
    Ahead edges start goal p.1.source := by
  induction j using Nat.strongRecOn generalizing p with
  | ind j ih =>
    obtain ⟨e,parent⟩ := p
    cases parent with
    | none => exact h.first j e hp ▸ Ahead.start
    | some k =>
      obtain ⟨hkj,hki,q,hq,hs⟩ := h.next j e k hp
      exact hs ▸ Ahead.next (ih k hkj hq) (h.edge k q hq) (h.closed k hki q hq).1

omit [DecidableEq O] in
/-- A search that has looked past everything has come upon every parameter there is a path to. -/
theorem Searching.complete {all : Pending O} (h : Searching edges start goal all.length all) {path : List (UseEdge O)}
    (htell : ∀ g ∈ edges, ∀ h ∈ edges, Ahead edges start goal g.source → Ahead edges start goal h.source →
      edgeKey g = edgeKey h → g.target = h.target)
    (ha : a = start ∨ ∃ p ∈ all, p.1.target = a) (hpath : IsPath edges a path b) : b = start ∨ ∃ p ∈ all, p.1.target = b := by
  induction path generalizing a with
  | nil =>
    cases hpath
    exact ha
  | cons g path ih =>
    obtain ⟨hg,rfl,hpath⟩ := hpath
    have hkey : Ahead edges start goal g.source ∧ edgeKey g ∈ keys all := by
      rcases ha with hs | ⟨p,hp,hs⟩
      · exact ⟨hs ▸ Ahead.start,h.opened g hg hs⟩
      · obtain ⟨j,hj⟩ := List.getElem?_of_mem hp
        have hjall : j < all.length := (List.getElem?_eq_some_iff.mp hj).1
        obtain ⟨hgoal,hout⟩ := h.closed j hjall p hj
        exact ⟨hs ▸ Ahead.next (h.ahead hj) (h.edge j p hj) hgoal,hout g hg hs.symm⟩
    obtain ⟨q,hq,hqkey⟩ := List.mem_map.mp hkey.2
    obtain ⟨j,hj⟩ := List.getElem?_of_mem hq
    have htarget : q.1.target = g.target := htell q.1 (h.edge j q hj) g hg (h.ahead hj) hkey.1 hqkey
    exact ih (.inr ⟨q,hq,htarget⟩) hpath

theorem pathBack_isPath {back : List (UseEdge O)} (h : pathBack edges e = some back) : IsPath edges e.target back e.source := by
  rw [pathBack] at h
  split_ifs at h with hloop
  · cases h
    exact hloop.symm
  · rcases (searching_start edges e.target e.source).search (Nat.lt_succ_self _) with
      ⟨path,hpath,hreal⟩ | ⟨hnone,-⟩
    · cases hpath.symm.trans h
      exact hreal
    · cases hnone.symm.trans h

theorem pathBack_isSome (htell : Telling edges) (he : e ∈ edges) : (pathBack edges e).isSome ↔ OnCycle edges e := by
  constructor
  · intro h
    obtain ⟨back,hback⟩ := Option.isSome_iff_exists.mp h
    exact ⟨back,pathBack_isPath hback⟩
  · intro hcycle
    obtain ⟨path,hpath⟩ := hcycle
    rw [pathBack]
    split_ifs with hloop
    · rfl
    rcases (searching_start edges e.target e.source).search (Nat.lt_succ_self _) with
      ⟨path,hfound,-⟩ | ⟨-,all,hall⟩
    · rw [hfound]
      rfl
    · rcases hall.complete (htell e he ⟨path,hpath⟩) (.inl rfl) hpath with hs | ⟨p,hp,hs⟩
      · exact absurd hs hloop
      · obtain ⟨j,hj⟩ := List.getElem?_of_mem hp
        exact absurd hs (hall.closed j (List.getElem?_eq_some_iff.mp hj).1 p hj).1

/-! ### Reports -/

/-- Reports at different places, where a report stands for each place taken. -/
structure Placed (r : Reports O) : Prop where
  places : r.1 = r.2.map fun report => report.1.origin
  nodup : r.1.Nodup

theorem mem_reportEdge (r : Reports O) (e : UseEdge O) (p : Origin) :
    p ∈ (reportEdge edges r e).1 ↔ p ∈ r.1 ∨ e.origin = p ∧ e.grows ∧ (pathBack edges e).isSome := by
  rw [reportEdge]
  cases hg : e.grows with
  | false => simp
  | true =>
    by_cases hm : e.origin ∈ r.1
    · have hsame : e.origin = p → p ∈ r.1 := fun h => h ▸ hm
      simp [hm]
      exact fun h _ => hsame h
    · cases hb : pathBack edges e <;> simp [hm, eq_comm]

theorem Placed.reportEdge {r : Reports O} (h : Placed r) (e : UseEdge O) : Placed (reportEdge edges r e) := by
  rw [Expansion.reportEdge]
  split_ifs with hg hm
  · exact h
  · exact h
  · cases pathBack edges e with
    | none => exact h
    | some back =>
      refine ⟨by rw [h.places,List.map_append]; rfl,List.nodup_append.mpr ⟨h.nodup,List.nodup_singleton _,fun p hp q hq hpq => hm ?_⟩⟩
      have hq' : q = e.origin := List.mem_singleton.mp hq
      rwa [← hq',← hpq]

theorem Placed.fold {r : Reports O} (h : Placed r) (rest : List (UseEdge O)) : Placed (rest.foldl (Expansion.reportEdge edges) r) := by
  induction rest generalizing r with
  | nil => exact h
  | cons e rest ih => exact ih (h.reportEdge e)

theorem mem_fold (rest : List (UseEdge O)) (r : Reports O) (p : Origin) : p ∈ (rest.foldl (reportEdge edges) r).1 ↔
    p ∈ r.1 ∨ ∃ e ∈ rest, e.origin = p ∧ e.grows ∧ (pathBack edges e).isSome := by
  induction rest generalizing r with
  | nil => simp
  | cons e rest ih =>
    rw [List.foldl_cons,ih,mem_reportEdge,or_assoc]
    simp

structure Exact (uses : List (GenericUse O)) : Prop where
  reported : ∀ p, (∃ report ∈ endlessUseDiagnostics uses [], report.1.origin = p) ↔
    ∃ use ∈ uses, use.origin = p ∧ ∃ e ∈ use.edges, e.grows ∧ OnCycle (edgesOf uses) e
  found : ∀ e ∈ edgesOf uses, OnCycle (edgesOf uses) e → (pathBack (edgesOf uses) e).isSome
  real : ∀ e ∈ edgesOf uses, ∀ back, pathBack (edgesOf uses) e = some back → IsPath (edgesOf uses) e.target back e.source
  once : ((endlessUseDiagnostics uses []).map fun report => report.1.origin).Nodup

theorem mem_edgesOf {uses : List (GenericUse O)} : e ∈ edgesOf uses ↔ ∃ use ∈ uses, e ∈ use.edges := List.mem_flatMap

theorem origin_of_mem_edges {use : GenericUse O} (he : e ∈ use.edges) : e.origin = use.origin := by
  obtain ⟨⟨argument,i⟩,-,he⟩ := List.mem_flatMap.mp he
  obtain ⟨p,-,rfl⟩ := List.mem_map.mp he
  rfl

/-- Two functions that pass their parameter on, one of them inside an array. -/
def growingPair : List (GenericUse ℕ) :=
  [⟨1,[.param 0 0],⟨['a'],10⟩⟩,⟨0,[.array (.param 1 0)],⟨['a'],50⟩⟩]

def chainedCalls : List (GenericUse ℕ) :=
  [⟨2,[.param 0 0],⟨['a'],10⟩⟩,⟨1,[.param 0 0],⟨['a'],10⟩⟩,⟨0,[.array (.param 1 0)],⟨['a'],50⟩⟩]

end Ens.Expansion
