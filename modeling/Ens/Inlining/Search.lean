import Ens.Inlining.Components

/-! # The search for groups

What holds of every state of the search: the stack is in the order of entry, each function on it is reached from those before it and reaches
one on the path, and what is off it is in finished groups.
-/
set_option linter.all false
namespace Ens.Inlining
open Components Relation

/-- A call the search has followed. Those of a function on the path are followed up to its next call. -/
def Followed (g : CallGraph) (path : List (ℕ × ℕ)) (v w : ℕ) : Prop :=
  ∃ edges, g.callees[v]? = some edges ∧ w ∈ edges ∧ ∀ e, (v,e) ∈ path → w ∈ edges.take e

def Search.nodes (s : Search) : List ℕ := s.path.map Prod.fst

abbrev CallGraph.Reach (g : CallGraph) : ℕ → ℕ → Prop := ReflTransGen g.Calls

structure Inv (g : CallGraph) (s : Search) : Prop where
  bound : ∀ v, 0 ≤ s.order v → v < g.callees.length
  fresh : 0 ≤ s.visited
  before : ∀ v, s.order v < s.visited
  marked : ∀ v, s.onStack v = true ↔ v ∈ s.stack
  placed : ∀ v, 0 ≤ s.order v ↔ v ∈ s.stack ∨ v ∈ s.groups.flatten
  apart : ∀ v ∈ s.stack, v ∉ s.groups.flatten
  sorted : s.stack.Pairwise fun v w => s.order w < s.order v
  deeper : s.nodes.Pairwise fun v w => s.order w < s.order v
  onStack : ∀ v ∈ s.nodes, v ∈ s.stack
  followed : ∀ v w, 0 ≤ s.order v → Followed g s.path v w → 0 ≤ s.order w
  forward : ∀ v ∈ s.stack, ∀ w ∈ s.stack, s.order v ≤ s.order w → g.Reach v w
  backward : ∀ v ∈ s.stack, ∃ p ∈ s.nodes, s.order p ≤ s.order v ∧ g.Reach v p
  lowReach : ∀ p ∈ s.nodes, ∃ v ∈ s.stack, s.order v = s.low p ∧ s.order v ≤ s.order p ∧ g.Reach p v
  lowest : ∀ p ∈ s.nodes, ∀ v ∈ s.stack, s.order p ≤ s.order v → (∀ q ∈ s.nodes, s.order q ≤ s.order v → s.order q ≤ s.order p) →
    ∀ w ∈ s.stack, Followed g s.path v w → s.low p ≤ s.order w
  filled : ∀ group ∈ s.groups, group ≠ []
  nodup : s.groups.flatten.Nodup
  closed : ∀ (i : ℕ) (group : List ℕ), s.groups[i]? = some group → ∀ v ∈ group, ∀ w : ℕ, g.Calls v w → ∃ j ≤ i, ∃ other : List ℕ, s.groups[j]? = some other ∧ w ∈ other
  components : ∀ group ∈ s.groups, ∀ v ∈ group, ∀ w, w ∈ group ↔ Mutual g.Calls v w

variable {g : CallGraph} {s : Search} {v w c node edge : ℕ} {edges : List ℕ} {post path : List (ℕ × ℕ)}

theorem inv_start : Inv g start := by
  have hunseen : ∀ v, ¬0 ≤ start.order v := fun v => not_le.mpr (show (-1 : ℤ) < 0 by decide)
  exact {
    bound := fun v h => absurd h (hunseen v)
    fresh := le_refl _
    before := fun v => show (-1 : ℤ) < 0 by decide
    marked := fun v => iff_of_false Bool.false_ne_true List.not_mem_nil
    placed := fun v => iff_of_false (hunseen v) fun h => h.elim List.not_mem_nil List.not_mem_nil
    apart := fun _ h => absurd h List.not_mem_nil
    sorted := List.Pairwise.nil
    deeper := List.Pairwise.nil
    onStack := fun _ h => absurd h List.not_mem_nil
    followed := fun v w h => absurd h (hunseen v)
    forward := fun _ h => absurd h List.not_mem_nil
    backward := fun _ h => absurd h List.not_mem_nil
    lowReach := fun _ h => absurd h List.not_mem_nil
    lowest := fun _ h => absurd h List.not_mem_nil
    filled := fun _ h => absurd h List.not_mem_nil
    nodup := List.nodup_nil
    closed := fun _ _ h => by cases h
    components := fun _ h => absurd h List.not_mem_nil }

/-! ### Calls followed -/

theorem Followed.calls (h : Followed g path v w) : g.Calls v w := ⟨h.choose,h.choose_spec.1,h.choose_spec.2.1⟩

theorem followed_of_not_mem (h : g.Calls v w) (hv : v ∉ path.map Prod.fst) : Followed g path v w := by
  obtain ⟨edges,hedges,hw⟩ := h
  exact ⟨edges,hedges,hw,fun e he => absurd (List.mem_map_of_mem (f := Prod.fst) he) hv⟩

theorem Followed.mono {path' : List (ℕ × ℕ)} (h : Followed g path v w) (hsub : ∀ e, (v,e) ∈ path' → (v,e) ∈ path) : Followed g path' v w := by
  obtain ⟨edges,hedges,hw,htake⟩ := h
  exact ⟨edges,hedges,hw,fun e he => htake e (hsub e he)⟩

theorem not_followed_enter : ¬Followed g ((c,0) :: path) c w := by
  rintro ⟨edges,-,-,htake⟩
  have hnil := htake 0 List.mem_cons_self
  rw [List.take_zero] at hnil
  cases hnil

theorem followed_leave (hn : ((node,edge) :: path).map Prod.fst |>.Nodup) (hedges : g.callees[node]? = some edges) (hend : edges[edge]? = none)
    (h : Followed g path v w) : Followed g ((node,edge) :: path) v w := by
  obtain ⟨calls,hcalls,hw,htake⟩ := h
  refine ⟨calls,hcalls,hw,fun e he => ?_⟩
  rcases List.mem_cons.mp he with heq | he
  · cases heq
    cases hedges.symm.trans hcalls
    rwa [List.take_of_length_le (List.getElem?_eq_none_iff.mp hend)]
  · exact htake e he

theorem Inv.inj (h : Inv g s) (hv : v ∈ s.stack) (hw : w ∈ s.stack) (heq : s.order v = s.order w) : v = w := by
  have hdistinct : (s.stack.map s.order).Nodup := List.pairwise_map.mpr (h.sorted.imp fun hlt => ne_of_gt hlt)
  exact List.inj_on_of_nodup_map hdistinct hv hw heq

theorem Inv.nodes_nodup (h : Inv g s) : s.nodes.Nodup := h.deeper.imp fun hlt heq => absurd (heq ▸ hlt) (lt_irrefl _)

theorem Inv.low_le (h : Inv g s) (hv : v ∈ s.nodes) : s.low v ≤ s.order v := by
  obtain ⟨w,-,hlow,hle,-⟩ := h.lowReach v hv
  exact hlow ▸ hle

/-! ### Entering a function -/

theorem put_same {A : Type} {xs : ℕ → A} {x : A} : put xs v x v = x := if_pos rfl

theorem put_other {A : Type} {xs : ℕ → A} {x : A} (h : w ≠ v) : put xs v x w = xs w := if_neg h

/-- A function that everything on the stack reaches can be entered. -/
theorem Inv.enter (h : Inv g s) (hnew : s.order c < 0) (hc : c < g.callees.length) (hreach : ∀ v ∈ s.stack, g.Reach v c) :
    Inv g (s.enter c) := by
  have hstack : c ∉ s.stack := fun hm => absurd ((h.placed c).mpr (Or.inl hm)) (not_le.mpr hnew)
  have hgroups : c ∉ s.groups.flatten := fun hm => absurd ((h.placed c).mpr (Or.inr hm)) (not_le.mpr hnew)
  have hnodes : c ∉ s.nodes := fun hm => hstack (h.onStack c hm)
  have horder : ∀ v, v ≠ c → (s.enter c).order v = s.order v := fun v hv => put_other hv
  have hlow : ∀ v, v ≠ c → (s.enter c).low v = s.low v := fun v hv => put_other hv
  have horderc : (s.enter c).order c = s.visited := put_same
  have hlowc : (s.enter c).low c = s.visited := put_same
  have hold : ∀ v ∈ s.stack, v ≠ c := fun v hv heq => hstack (heq ▸ hv)
  have hpath : ∀ v ∈ s.nodes, v ≠ c := fun v hv heq => hnodes (heq ▸ hv)
  have hfollowed : ∀ v w, v ≠ c → Followed g (s.enter c).path v w → Followed g s.path v w := fun v w _ hf =>
    hf.mono fun e he => List.mem_cons_of_mem _ he
  refine {
    bound := fun v hv => ?_
    fresh := show 0 ≤ s.visited + 1 by have := h.fresh; omega
    before := fun v => ?_
    marked := fun v => ?_
    placed := fun v => ?_
    apart := fun v hv => ?_
    sorted := List.pairwise_cons.mpr ⟨fun v hv => ?_,h.sorted.imp_of_mem fun {v w} hv hw hlt => ?_⟩
    deeper := List.pairwise_cons.mpr ⟨fun v hv => ?_,h.deeper.imp_of_mem fun {v w} hv hw hlt => ?_⟩
    onStack := fun v hv => ?_
    followed := fun v w hv hf => ?_
    forward := fun v hv w hw hle => ?_
    backward := fun v hv => ?_
    lowReach := fun p hp => ?_
    lowest := fun p hp v hv hle hmax w hw hf => ?_
    filled := h.filled
    nodup := h.nodup
    closed := h.closed
    components := h.components }
  · by_cases hvc : v = c
    · exact hvc ▸ hc
    · rw [horder v hvc] at hv
      exact h.bound v hv
  · have hlt := h.before v
    have hnext : (s.enter c).visited = s.visited + 1 := rfl
    by_cases hvc : v = c
    · rw [hvc,horderc,hnext]
      omega
    · rw [horder v hvc,hnext]
      omega
  · by_cases hvc : v = c
    · rw [hvc]
      exact iff_of_true put_same List.mem_cons_self
    · have hput : (s.enter c).onStack v = s.onStack v := put_other hvc
      rw [hput,h.marked v]
      exact (List.mem_cons.trans (or_iff_right hvc)).symm
  · by_cases hvc : v = c
    · rw [hvc,horderc]
      exact iff_of_true h.fresh (Or.inl List.mem_cons_self)
    · rw [horder v hvc,h.placed v]
      exact or_congr_left (List.mem_cons.trans (or_iff_right hvc)).symm
  · rcases List.mem_cons.mp hv with rfl | hv
    · exact hgroups
    · exact h.apart v hv
  · rw [horderc,horder v (hold v hv)]
    exact h.before v
  · rw [horder v (hold v hv),horder w (hold w hw)]
    exact hlt
  · rw [horderc,horder v (hpath v hv)]
    exact h.before v
  · rw [horder v (hpath v hv),horder w (hpath w hw)]
    exact hlt
  · exact List.mem_cons.mpr ((List.mem_cons.mp hv).imp_right (h.onStack v))
  · by_cases hvc : v = c
    · rw [hvc] at hf
      exact (not_followed_enter hf).elim
    · rw [horder v hvc] at hv
      by_cases hwc : w = c
      · rw [hwc,horderc]
        exact h.fresh
      · rw [horder w hwc]
        exact h.followed v w hv (hfollowed v w hvc hf)
  · rcases List.mem_cons.mp hw with rfl | hw
    · rcases List.mem_cons.mp hv with rfl | hv
      · exact ReflTransGen.refl
      · exact hreach v hv
    · rw [horder w (hold w hw)] at hle
      rcases List.mem_cons.mp hv with heq | hv
      · rw [heq,horderc] at hle
        exact absurd (h.before w) (not_lt.mpr hle)
      · rw [horder v (hold v hv)] at hle
        exact h.forward v hv w hw hle
  · rcases List.mem_cons.mp hv with rfl | hv
    · exact ⟨v,List.mem_cons_self,le_refl _,ReflTransGen.refl⟩
    · obtain ⟨p,hp,hle,hr⟩ := h.backward v hv
      exact ⟨p,List.mem_cons_of_mem _ hp,by rw [horder p (hpath p hp),horder v (hold v hv)]; exact hle,hr⟩
  · rcases List.mem_cons.mp hp with rfl | hp
    · exact ⟨_,List.mem_cons_self,horderc.trans hlowc.symm,le_refl _,ReflTransGen.refl⟩
    · obtain ⟨v,hv,heq,hle,hr⟩ := h.lowReach p hp
      refine ⟨v,List.mem_cons_of_mem _ hv,?_,?_,hr⟩
      · rw [horder v (hold v hv),hlow p (hpath p hp)]
        exact heq
      · rw [horder v (hold v hv),horder p (hpath p hp)]
        exact hle
  · have hvc : v ≠ c := by
      rintro rfl
      rcases List.mem_cons.mp hp with rfl | hp
      · exact not_followed_enter hf
      · have hlast := hmax v List.mem_cons_self (le_refl _)
        rw [horderc,horder p (hpath p hp)] at hlast
        exact absurd (h.before p) (not_lt.mpr hlast)
    have hv : v ∈ s.stack := (List.mem_cons.mp hv).resolve_left hvc
    have hpc : p ≠ c := by
      rintro rfl
      rw [horderc,horder v hvc] at hle
      exact absurd (h.before v) (not_lt.mpr hle)
    have hp : p ∈ s.nodes := (List.mem_cons.mp hp).resolve_left hpc
    rw [hlow p hpc]
    by_cases hwc : w = c
    · rw [hwc,horderc]
      exact (h.low_le hp).trans (h.before p).le
    · rw [horder w hwc]
      rw [horder p hpc,horder v hvc] at hle
      refine h.lowest p hp v hv hle (fun q hq hqv => ?_) w ((List.mem_cons.mp hw).resolve_left hwc) (hfollowed v w hvc hf)
      have hqc := hpath q hq
      have hlast := hmax q (List.mem_cons_of_mem _ hq)
      rw [horder q hqc,horder v hvc,horder p hpc] at hlast
      exact hlast hqv

/-! ### Following a call -/

/-- A low number may go down to the order of a function that is reached. -/
theorem Inv.lower (h : Inv g s) (hv : v ∈ s.stack) (hr : g.Reach c v) (hle : s.order v ≤ s.low c) :
    Inv g { s with low := put s.low c (s.order v) } := by
  have hlower : ∀ p, put s.low c (s.order v) p ≤ s.low p := by
    intro p
    by_cases hpc : p = c
    · rw [hpc,put_same]
      exact hle
    · rw [put_other hpc]
  exact { h with
    lowReach := fun p hp => by
      by_cases hpc : p = c
      · subst hpc
        exact ⟨v,hv,put_same.symm,hle.trans (h.low_le hp),hr⟩
      · obtain ⟨w,hw,heq,hrest⟩ := h.lowReach p hp
        exact ⟨w,hw,heq.trans (put_other hpc).symm,hrest⟩
    lowest := fun p hp v hv hpv hmax w hw hf => (hlower p).trans (h.lowest p hp v hv hpv hmax w hw hf) }

/-- The next call of a function on the path is followed once the function it calls is entered and its low number is no later. -/
theorem Inv.advance (pre : List (ℕ × ℕ)) (h : Inv g s) (hpath : s.path = pre ++ (node,edge) :: post) (hedges : g.callees[node]? = some edges)
    (hcallee : edges[edge]? = some c) (hseen : 0 ≤ s.order c) (hlow : c ∈ s.stack → s.low node ≤ s.order c) :
    Inv g { s with path := pre ++ (node,edge + 1) :: post } := by
  have hnodes : (pre ++ (node,edge + 1) :: post).map Prod.fst = s.nodes := by
    rw [Search.nodes,hpath,List.map_append,List.map_append]
    rfl
  have hmem : (node,edge) ∈ s.path := by
    rw [hpath]
    exact List.mem_append_right _ List.mem_cons_self
  have hfollowed : ∀ v w, Followed g (pre ++ (node,edge + 1) :: post) v w → Followed g s.path v w ∨ v = node ∧ w = c := by
    rintro v w ⟨calls,hcalls,hw,htake⟩
    by_cases hvn : v = node
    · subst hvn
      cases hcalls.symm.trans hedges
      have hnext := htake (edge + 1) (List.mem_append_right _ List.mem_cons_self)
      rw [List.take_add_one,hcallee] at hnext
      rcases List.mem_append.mp hnext with hbefore | hlast
      · refine Or.inl ⟨_,hcalls,hw,fun e he => ?_⟩
        have hsame := List.inj_on_of_nodup_map h.nodes_nodup he hmem rfl
        rw [(Prod.mk.inj hsame).2]
        exact hbefore
      · exact Or.inr ⟨rfl,List.mem_singleton.mp hlast⟩
    · refine Or.inl ⟨calls,hcalls,hw,fun e he => htake e ?_⟩
      rw [hpath] at he
      rcases List.mem_append.mp he with he | he
      · exact List.mem_append_left _ he
      · rcases List.mem_cons.mp he with heq | he
        · exact absurd (Prod.mk.inj heq).1 hvn
        · exact List.mem_append_right _ (List.mem_cons_of_mem _ he)
  have hnode : node ∈ s.stack := h.onStack node (List.mem_map_of_mem (f := Prod.fst) hmem)
  exact { h with
    deeper := by
      rw [Search.nodes,hnodes]
      exact h.deeper
    onStack := fun v hv => h.onStack v (hnodes ▸ hv)
    followed := fun v w hv hf => by
      rcases hfollowed v w hf with hf | ⟨-,rfl⟩
      · exact h.followed v w hv hf
      · exact hseen
    backward := fun v hv => by
      rw [Search.nodes,hnodes]
      exact h.backward v hv
    lowReach := fun p hp => h.lowReach p (hnodes ▸ hp)
    lowest := fun p hp v hv hle hmax w hw hf => by
      rw [Search.nodes,hnodes] at hp hmax
      rcases hfollowed v w hf with hf | ⟨rfl,rfl⟩
      · exact h.lowest p hp v hv hle hmax w hw hf
      · have hnp := hmax v (List.mem_map_of_mem (f := Prod.fst) hmem) (le_refl _)
        have hsame := h.inj hnode (h.onStack p hp) (le_antisymm hnp hle)
        exact hsame ▸ hlow hw }

/-! ### Leaving a function -/

theorem Inv.head_last (h : Inv g s) (hpath : s.path = (node,edge) :: path) : ∀ p ∈ s.nodes, s.order p ≤ s.order node := by
  intro p hp
  have hdeeper := h.deeper
  rw [Search.nodes,hpath] at hdeeper hp
  rcases List.mem_cons.mp hp with rfl | hp
  · exact le_refl _
  · exact (List.rel_of_pairwise_cons hdeeper hp).le

theorem Inv.rest_before (h : Inv g s) (hpath : s.path = (node,edge) :: path) : ∀ p ∈ path.map Prod.fst, s.order p < s.order node := by
  intro p hp
  have hdeeper := h.deeper
  rw [Search.nodes,hpath] at hdeeper
  exact List.rel_of_pairwise_cons hdeeper hp

/-- Where the stack leads from a function that leads further back, there is a function left on the path. -/
theorem Inv.backward_leave (h : Inv g s) (hpath : s.path = (node,edge) :: path) (hlow : s.low node < s.order node) (hv : v ∈ s.stack) :
    ∃ p ∈ path.map Prod.fst, s.order p ≤ s.order v ∧ g.Reach v p := by
  have hsplit : ∀ p ∈ s.nodes, p = node ∨ p ∈ path.map Prod.fst := fun p hp => by
    rw [Search.nodes,hpath] at hp
    exact List.mem_cons.mp hp
  have hnode : node ∈ s.nodes := by
    rw [Search.nodes,hpath]
    exact List.mem_cons_self
  obtain ⟨p,hp,hle,hr⟩ := h.backward v hv
  rcases hsplit p hp with rfl | hrest
  · obtain ⟨z,hz,heq,-,hpz⟩ := h.lowReach p hnode
    obtain ⟨q,hq,hqz,hzq⟩ := h.backward z hz
    have hqne : q ≠ p := by
      rintro rfl
      omega
    exact ⟨q,(hsplit q hq).resolve_left hqne,by omega,hr.trans (hpz.trans hzq)⟩
  · exact ⟨p,hrest,hle,hr⟩

/-- A function that leads further back stays on the stack when the search leaves it, and the one before it on the path leads as far. -/
theorem Inv.leave (h : Inv g s) (hpath : s.path = (node,edge) :: path) (hedges : g.callees[node]? = some edges) (hend : edges[edge]? = none)
    (hlow : s.low node < s.order node) (hparent : ∀ p ∈ path.head?, s.low p.1 ≤ s.low node) : Inv g { s with path := path } := by
  have hnodes : s.nodes = node :: path.map Prod.fst := by
    rw [Search.nodes,hpath]
    rfl
  have hin : ∀ p ∈ path.map Prod.fst, p ∈ s.nodes := fun p hp => by
    rw [hnodes]
    exact List.mem_cons_of_mem _ hp
  have hnode : node ∈ s.nodes := by
    rw [hnodes]
    exact List.mem_cons_self
  have hfollowed : ∀ v w, Followed g path v w → Followed g s.path v w := fun v w hf => by
    have hn := h.nodes_nodup
    rw [Search.nodes,hpath] at hn
    rw [hpath]
    exact followed_leave hn hedges hend hf
  have hdeeper := h.deeper
  rw [hnodes] at hdeeper
  exact { h with
    deeper := hdeeper.of_cons
    onStack := fun v hv => h.onStack v (hin v hv)
    followed := fun v w hv hf => h.followed v w hv (hfollowed v w hf)
    backward := fun v hv => h.backward_leave hpath hlow hv
    lowReach := fun p hp => h.lowReach p (hin p hp)
    lowest := fun p hp v hv hle hmax w hw hf => by
      by_cases hnv : s.order node ≤ s.order v
      · -- What the function left behind is now behind the one before it on the path.
        have hbefore := h.rest_before hpath
        have hhead : ∃ q ∈ path.head?, q.1 = p := by
          cases path with
          | nil => cases hp
          | cons q rest =>
            refine ⟨q,rfl,?_⟩
            rcases List.mem_cons.mp hp with heq | hp
            · exact heq.symm
            · have hq := hmax q.1 List.mem_cons_self ((hbefore q.1 List.mem_cons_self).le.trans hnv)
              exact absurd (List.rel_of_pairwise_cons hdeeper.of_cons hp) (not_lt.mpr hq)
        obtain ⟨q,hq,rfl⟩ := hhead
        exact (hparent q hq).trans (h.lowest node hnode v hv hnv (fun r hr _ => h.head_last hpath r hr) w hw (hfollowed v w hf))
      · refine h.lowest p (hin p hp) v hv hle (fun q hq hqv => ?_) w hw (hfollowed v w hf)
        rw [hnodes] at hq
        rcases List.mem_cons.mp hq with rfl | hq
        · exact absurd hqv hnv
        · exact hmax q hq hqv }

end Ens.Inlining
