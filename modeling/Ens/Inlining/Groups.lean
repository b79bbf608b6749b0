import Ens.Inlining.Search
import Mathlib.Algebra.GroupWithZero.Nat
import Mathlib.Algebra.Order.BigOperators.Group.Finset

/-! # Groups in the order of calls

A function that leads no further back closes a component of the calls, whose other calls all go into groups closed before.
-/
set_option linter.all false
namespace Ens.Inlining
open Components Relation Loop

variable {g : CallGraph} {s : Search} {v w c node edge : ℕ} {edges group stack : List ℕ} {path : List (ℕ × ℕ)}

theorem popGroup_spec {order : ℕ → ℤ} (hs : stack.Pairwise fun v w => order w < order v) (hnode : node ∈ stack) (before : List ℕ) :
    ∃ group rest, popGroup node stack before = .ok (before ++ group,rest) ∧ stack = group ++ rest ∧ (∀ v ∈ group, order node ≤ order v) ∧
      ∀ v ∈ rest, order v < order node := by
  induction stack generalizing before with
  | nil => cases hnode
  | cons member stack ih =>
    obtain ⟨hfirst,hs⟩ := List.pairwise_cons.mp hs
    rw [popGroup]
    by_cases hm : member = node
    · subst hm
      rw [if_pos rfl]
      exact ⟨[member],stack,rfl,rfl,fun v hv => (List.mem_singleton.mp hv) ▸ le_refl _,hfirst⟩
    · rw [if_neg hm]
      have hin : node ∈ stack := (List.mem_cons.mp hnode).resolve_left (Ne.symm hm)
      obtain ⟨group,rest,hpop,rfl,hgroup,hrest⟩ := ih hs hin (before ++ [member])
      refine ⟨member :: group,rest,?_,rfl,fun v hv => ?_,hrest⟩
      · rw [hpop,List.append_assoc]
        rfl
      · rcases List.mem_cons.mp hv with rfl | hv
        · exact (hfirst node hin).le
        · exact hgroup v hv

def Search.without (s : Search) (group stack : List ℕ) (path : List (ℕ × ℕ)) : Search :=
  { s with stack := stack, onStack := fun k => if k ∈ group then false else s.onStack k, groups := s.groups ++ [group], path := path }

theorem Inv.close (h : Inv g s) (hpath : s.path = (node,edge) :: path) (hedges : g.callees[node]? = some edges) (hend : edges[edge]? = none)
    (hlow : s.low node = s.order node) (hstack : s.stack = group ++ stack) (hgroup : ∀ v ∈ group, s.order node ≤ s.order v)
    (hrest : ∀ v ∈ stack, s.order v < s.order node) : Inv g (s.without group stack path) := by
  have hnodes : s.nodes = node :: path.map Prod.fst := by
    rw [Search.nodes,hpath]
    rfl
  have hin : ∀ p ∈ path.map Prod.fst, p ∈ s.nodes := fun p hp => by
    rw [hnodes]
    exact List.mem_cons_of_mem _ hp
  have hnode : node ∈ s.nodes := by
    rw [hnodes]
    exact List.mem_cons_self
  have hbefore := h.rest_before hpath
  have hfollowed : ∀ v w, Followed g path v w → Followed g s.path v w := fun v w hf => by
    have hn := h.nodes_nodup
    rw [Search.nodes,hpath] at hn
    rw [hpath]
    exact followed_leave hn hedges hend hf
  have hg : ∀ v ∈ group, v ∈ s.stack := fun v hv => hstack ▸ List.mem_append_left _ hv
  have hr : ∀ v ∈ stack, v ∈ s.stack := fun v hv => hstack ▸ List.mem_append_right _ hv
  have hsplit : ∀ v ∈ s.stack, v ∈ group ∨ v ∈ stack := fun v hv => List.mem_append.mp (hstack ▸ hv)
  have hapart : ∀ v ∈ stack, v ∉ group := fun v hv hm => absurd (hgroup v hm) (not_le.mpr (hrest v hv))
  have hdeeper := h.deeper
  rw [hnodes] at hdeeper
  have hflat : ∀ v, v ∈ (s.without group stack path).groups.flatten ↔ v ∈ s.groups.flatten ∨ v ∈ group := fun v => by
    rw [Search.without,List.flatten_append,List.mem_append,List.flatten_singleton]
  -- All calls of the group were followed, so they lead into it or into groups closed before.
  have hcalls : ∀ v ∈ group, ∀ w, g.Calls v w → w ∈ group ∨ w ∈ s.groups.flatten := by
    intro v hv w hvw
    have hnot : v ∉ path.map Prod.fst := fun hp => absurd (hgroup v hv) (not_le.mpr (hbefore v hp))
    have hf := hfollowed v w (followed_of_not_mem hvw hnot)
    have hseen := h.followed v w ((h.placed v).mpr (Or.inl (hg v hv))) hf
    rcases (h.placed w).mp hseen with hw | hw
    · have hle := h.lowest node hnode v (hg v hv) (hgroup v hv) (fun p hp _ => h.head_last hpath p hp) w hw hf
      exact Or.inl ((hsplit w hw).resolve_right fun hm => absurd (hrest w hm) (not_lt.mpr (hlow ▸ hle)))
    · exact Or.inr hw
  have hclosed : Closed g.Calls {v | v ∈ s.groups.flatten} := by
    intro v hv w hvw
    obtain ⟨other,hother,hm⟩ := List.mem_flatten.mp hv
    obtain ⟨i,hi,rfl⟩ := List.getElem_of_mem hother
    obtain ⟨j,-,next,hnext,hw⟩ := h.closed i _ (List.getElem?_eq_getElem hi) v hm w hvw
    exact List.mem_flatten.mpr ⟨next,List.mem_of_getElem? hnext,hw⟩
  have hboth : Closed g.Calls ({v | v ∈ group} ∪ {v | v ∈ s.groups.flatten}) := by
    rintro v (hv | hv) w hvw
    · exact hcalls v hv w hvw
    · exact Or.inr (hclosed v hv w hvw)
  have hto : ∀ v ∈ group, g.Reach v node := by
    intro v hv
    obtain ⟨p,hp,hle,hvp⟩ := h.backward v (hg v hv)
    have hpg : p ∈ group := (hboth.reach (Or.inl hv) hvp).resolve_right (h.apart p (h.onStack p hp))
    have hsame := h.inj (h.onStack p hp) (h.onStack node hnode) (le_antisymm (h.head_last hpath p hp) (hgroup p hpg))
    exact hsame ▸ hvp
  have hfrom : ∀ v ∈ group, g.Reach node v := fun v hv => h.forward node (h.onStack node hnode) v (hg v hv) (hgroup v hv)
  refine {
    bound := h.bound
    fresh := h.fresh
    before := h.before
    marked := fun v => ?_
    placed := fun v => ?_
    apart := fun v hv => ?_
    sorted := (List.pairwise_append.mp (hstack ▸ h.sorted)).2.1
    deeper := hdeeper.of_cons
    onStack := fun v hv => ?_
    followed := fun v w hv hf => h.followed v w hv (hfollowed v w hf)
    forward := fun v hv w hw hle => h.forward v (hr v hv) w (hr w hw) hle
    backward := fun v hv => ?_
    lowReach := fun p hp => ?_
    lowest := fun p hp v hv hle hmax w hw hf => ?_
    filled := fun other hother => ?_
    nodup := ?_
    closed := fun i other hother v hv w hvw => ?_
    components := fun other hother v hv w => ?_ }
  · by_cases hm : v ∈ group
    · have hclear : (s.without group stack path).onStack v = false := if_pos hm
      rw [hclear]
      exact iff_of_false Bool.false_ne_true fun hv => hapart v hv hm
    · have hkeep : (s.without group stack path).onStack v = s.onStack v := if_neg hm
      rw [hkeep,h.marked v]
      exact ⟨fun hv => (hsplit v hv).resolve_left hm,hr v⟩
  · rw [hflat]
    refine (h.placed v).trans ⟨fun hv => ?_,fun hv => ?_⟩
    · rcases hv with hv | hv
      · exact (hsplit v hv).elim (fun hm => Or.inr (Or.inr hm)) Or.inl
      · exact Or.inr (Or.inl hv)
    · rcases hv with hv | hv | hv
      · exact Or.inl (hr v hv)
      · exact Or.inr hv
      · exact Or.inl (hg v hv)
  · rw [hflat,not_or]
    exact ⟨h.apart v (hr v hv),hapart v hv⟩
  · have hlt := hbefore v hv
    exact (hsplit v (h.onStack v (hin v hv))).resolve_left fun hm => absurd (hgroup v hm) (not_le.mpr hlt)
  · obtain ⟨p,hp,hle,hvp⟩ := h.backward v (hr v hv)
    have hpn : p ≠ node := fun heq => absurd (hrest v hv) (not_lt.mpr (heq ▸ hle))
    rw [hnodes] at hp
    exact ⟨p,(List.mem_cons.mp hp).resolve_left hpn,hle,hvp⟩
  · obtain ⟨z,hz,heq,hle,hpz⟩ := h.lowReach p (hin p hp)
    have hlt := hbefore p hp
    exact ⟨z,(hsplit z hz).resolve_left fun hm => absurd (hgroup z hm) (not_le.mpr (hle.trans_lt hlt)),heq,hle,hpz⟩
  · refine h.lowest p (hin p hp) v (hr v hv) hle (fun q hq hqv => ?_) w (hr w hw) (hfollowed v w hf)
    rw [hnodes] at hq
    rcases List.mem_cons.mp hq with rfl | hq
    · exact absurd (hrest v hv) (not_lt.mpr hqv)
    · exact hmax q hq hqv
  · rcases List.mem_append.mp hother with hother | hother
    · exact h.filled other hother
    · have hmem : node ∈ group := (hsplit node (h.onStack node hnode)).resolve_right fun hm => lt_irrefl _ (hrest node hm)
      rw [List.mem_singleton.mp hother]
      exact List.ne_nil_of_mem hmem
  · have hn : group.Nodup := by
      have hnodup : s.stack.Nodup := h.sorted.imp fun hlt heq => absurd (heq ▸ hlt) (lt_irrefl _)
      rw [hstack] at hnodup
      exact (List.nodup_append.mp hnodup).1
    rw [Search.without,List.flatten_append,List.flatten_singleton]
    exact List.nodup_append.mpr ⟨h.nodup,hn,fun a ha b hb heq => h.apart b (hg b hb) (heq ▸ ha)⟩
  · rcases lt_or_ge i s.groups.length with hi | hi
    · rw [Search.without,List.getElem?_append_left hi] at hother
      obtain ⟨j,hj,next,hnext,hw⟩ := h.closed i other hother v hv w hvw
      refine ⟨j,hj,next,?_,hw⟩
      rw [Search.without,List.getElem?_append_left (hj.trans_lt hi)]
      exact hnext
    · rw [Search.without,List.getElem?_append_right hi] at hother
      cases List.mem_singleton.mp (List.mem_of_getElem? hother)
      rcases hcalls v hv w hvw with hw | hw
      · exact ⟨i,le_refl _,_,by rw [Search.without,List.getElem?_append_right hi,hother],hw⟩
      · obtain ⟨next,hnext,hw⟩ := List.mem_flatten.mp hw
        obtain ⟨j,hj,rfl⟩ := List.getElem_of_mem hnext
        exact ⟨j,by omega,_,by rw [Search.without,List.getElem?_append_left hj]; exact List.getElem?_eq_getElem hj,hw⟩
  · rcases List.mem_append.mp hother with hother | hother
    · exact h.components other hother v hv w
    · cases List.mem_singleton.mp hother
      exact (mutual_iff hclosed hboth (fun v hv => h.apart v (hg v hv)) hto hfrom hv).symm

/-! ### A round of the search -/

def remaining (g : CallGraph) (s : Search) : ℕ :=
  (∑ v ∈ Finset.range g.callees.length, if s.order v < 0 then g.degree v + 1 else 0) + (s.path.map fun p => g.degree p.1 - p.2 + 1).sum

theorem remaining_enter (hnew : s.order c < 0) (hc : c < g.callees.length) (hfresh : 0 ≤ s.visited) :
    remaining g (s.enter c) = remaining g s := by
  have hmem : c ∈ Finset.range g.callees.length := Finset.mem_range.mpr hc
  have horderc : (s.enter c).order c = s.visited := put_same
  rw [remaining,remaining,← Finset.add_sum_erase _ _ hmem,← Finset.add_sum_erase _ (fun v => if s.order v < 0 then g.degree v + 1 else 0) hmem,
    if_pos hnew,horderc,if_neg (not_lt.mpr hfresh)]
  have hrest : (∑ v ∈ (Finset.range g.callees.length).erase c, if (s.enter c).order v < 0 then g.degree v + 1 else 0)
      = ∑ v ∈ (Finset.range g.callees.length).erase c, if s.order v < 0 then g.degree v + 1 else 0 :=
    Finset.sum_congr rfl fun v hv => by
      have horder : (s.enter c).order v = s.order v := put_other (Finset.ne_of_mem_erase hv)
      rw [horder]
  have hpath : ((s.enter c).path.map fun p => g.degree p.1 - p.2 + 1).sum = g.degree c + 1 + (s.path.map fun p => g.degree p.1 - p.2 + 1).sum := rfl
  rw [hrest,hpath]
  omega

theorem degree_eq (hedges : g.callees[v]? = some edges) : g.degree v = edges.length := by
  rw [CallGraph.degree,hedges]
  rfl

theorem Inv.reach_head (h : Inv g s) (hpath : s.path = (node,edge) :: path) (hv : v ∈ s.stack) : g.Reach v node := by
  have hnode : node ∈ s.nodes := by
    rw [Search.nodes,hpath]
    exact List.mem_cons_self
  obtain ⟨p,hp,-,hvp⟩ := h.backward v hv
  exact hvp.trans (h.forward p (h.onStack p hp) node (h.onStack node hnode) (h.head_last hpath p hp))

theorem remaining_next (hpath : s.path = (node,edge) :: path) (hedges : g.callees[node]? = some edges) (hcallee : edges[edge]? = some c) :
    remaining g { s with path := (node,edge + 1) :: path } < remaining g s := by
  have hlt : edge < edges.length := (List.getElem?_eq_some_iff.mp hcallee).1
  have hdegree := degree_eq hedges
  rw [remaining,remaining,hpath,List.map_cons,List.map_cons,List.sum_cons,List.sum_cons]
  dsimp only
  omega

theorem remaining_leave (hpath : s.path = (node,edge) :: path) : remaining g { s with path := path } < remaining g s := by
  rw [remaining,remaining,hpath,List.map_cons,List.sum_cons]
  dsimp only
  omega

theorem Inv.follow (h : Inv g s) (hpath : s.path = (node,edge) :: path) (hedges : g.callees[node]? = some edges)
    (hcallee : edges[edge]? = some c) : ∃ s', step g s = .ok (.next s') ∧ Inv g s' ∧ remaining g s' < remaining g s := by
  have hcalls : g.Calls node c := ⟨edges,hedges,List.mem_of_getElem? hcallee⟩
  have hnode : node ∈ s.nodes := by
    rw [Search.nodes,hpath]
    exact List.mem_cons_self
  have hnext := remaining_next hpath hedges hcallee
  simp only [step,hpath,hedges,hcallee]
  refine ⟨_,rfl,?_⟩
  by_cases hnew : s.order c < 0
  · rw [if_pos hnew]
    have hc : c < g.callees.length := g.valid edges (List.mem_of_getElem? hedges) c (List.mem_of_getElem? hcallee)
    have hentered := h.enter hnew hc fun v hv => (h.reach_head hpath hv).tail hcalls
    have horderc : (s.enter c).order c = s.visited := put_same
    have hnc : node ≠ c := fun heq => absurd ((h.placed c).mpr (Or.inl (heq ▸ h.onStack node hnode))) (not_le.mpr hnew)
    have hlow : (s.enter c).low node = s.low node := put_other hnc
    have hpath' : (s.enter c).path = [(c,0)] ++ (node,edge) :: path := congrArg (List.cons (c,0)) hpath
    refine ⟨hentered.advance [(c,0)] hpath' hedges hcallee (horderc ▸ h.fresh) fun _ => ?_,?_⟩
    · rw [horderc,hlow]
      exact (h.low_le hnode).trans (h.before node).le
    · have hsame := remaining_enter (g := g) (s := { s with path := (node,edge + 1) :: path }) hnew hc h.fresh
      rw [hsame]
      exact hnext
  · rw [if_neg hnew]
    have hseen : 0 ≤ s.order c := not_lt.mp hnew
    by_cases hback : s.onStack c = true ∧ s.order c < s.low node
    · rw [if_pos hback]
      have hstack := (h.marked c).mp hback.1
      have hlowered := h.lower hstack (ReflTransGen.single hcalls) hback.2.le
      exact ⟨hlowered.advance [] hpath hedges hcallee hseen fun _ => le_of_eq put_same,hnext⟩
    · rw [if_neg hback]
      refine ⟨h.advance [] hpath hedges hcallee hseen fun hm => ?_,hnext⟩
      exact not_lt.mp fun hlt => hback ⟨(h.marked c).mpr hm,hlt⟩

theorem Inv.finish_back (h : Inv g s) (hpath : s.path = (node,edge) :: path) (hedges : g.callees[node]? = some edges)
    (hend : edges[edge]? = none) (hlow : s.low node < s.order node) :
    Inv g (s.back node path) ∧ remaining g (s.back node path) < remaining g s := by
  have hnode : node ∈ s.nodes := by
    rw [Search.nodes,hpath]
    exact List.mem_cons_self
  obtain ⟨z,hz,heq,-,hreach⟩ := h.lowReach node hnode
  cases path with
  | nil =>
    obtain ⟨p,hp,-⟩ := h.backward_leave hpath hlow hz
    cases hp
  | cons parent path =>
    obtain ⟨parent,at'⟩ := parent
    have hparent : parent ∈ s.nodes := by
      rw [Search.nodes,hpath]
      exact List.mem_cons_of_mem _ List.mem_cons_self
    have hbefore := h.rest_before hpath parent List.mem_cons_self
    have hleft := remaining_leave (g := g) hpath
    rw [Search.back]
    by_cases hfurther : s.low node < s.low parent
    · rw [if_pos hfurther,← heq]
      have hto : g.Reach parent z := (h.forward parent (h.onStack parent hparent) node (h.onStack node hnode) hbefore.le).trans hreach
      have hlowered := h.lower hz hto (heq ▸ hfurther.le)
      have hsame : put s.low parent (s.order z) node = s.low node := put_other fun he => absurd hbefore (he ▸ lt_irrefl _)
      have hlow' : put s.low parent (s.order z) node < s.order node := hsame.symm ▸ hlow
      have hequal : put s.low parent (s.order z) parent ≤ put s.low parent (s.order z) node := by rw [hsame,put_same,heq]
      refine ⟨hlowered.leave hpath hedges hend hlow' fun p hp => ?_,hleft⟩
      cases hp
      exact hequal
    · rw [if_neg hfurther]
      refine ⟨h.leave hpath hedges hend hlow fun p hp => ?_,hleft⟩
      cases hp
      exact not_lt.mp hfurther

theorem Inv.finish_group (h : Inv g s) (hpath : s.path = (node,edge) :: path) (hedges : g.callees[node]? = some edges)
    (hend : edges[edge]? = none) (hlow : s.low node = s.order node) :
    ∃ closed, s.close node = .ok closed ∧ Inv g (closed.back node path) ∧ remaining g (closed.back node path) < remaining g s := by
  have hnode : node ∈ s.nodes := by
    rw [Search.nodes,hpath]
    exact List.mem_cons_self
  obtain ⟨group,rest,hpop,hstack,hgroup,hrest⟩ := popGroup_spec h.sorted (h.onStack node hnode) []
  rw [Search.close,if_pos hlow,hpop]
  refine ⟨_,rfl,?_⟩
  have hback : (s.without group rest s.path).back node path = s.without group rest path := by
    cases path with
    | nil => rfl
    | cons parent path =>
      obtain ⟨parent,at'⟩ := parent
      have hparent : parent ∈ s.nodes := by
        rw [Search.nodes,hpath]
        exact List.mem_cons_of_mem _ List.mem_cons_self
      have hbefore := h.rest_before hpath parent List.mem_cons_self
      have hle := h.low_le hparent
      have hnot : ¬s.low node < s.low parent := by omega
      have hsame : (if (s.without group rest s.path).low node < (s.without group rest s.path).low parent
          then put s.low parent (s.low node) else s.low) = s.low := if_neg hnot
      exact congrArg (fun low => { s.without group rest ((parent,at') :: path) with low := low }) hsame
  have hclosed := h.close hpath hedges hend hlow hstack hgroup hrest
  rw [← hback] at hclosed
  refine ⟨hclosed,?_⟩
  have hleft := remaining_leave (g := g) (s := s.without group rest s.path) hpath
  have hsame : ({ s.without group rest s.path with path := path } : Search) = (s.without group rest s.path).back node path := hback.symm
  rw [hsame] at hleft
  exact hleft

theorem Inv.round (h : Inv g s) : step g s = .ok (.done s) ∧ s.path = []
    ∨ ∃ s', step g s = .ok (.next s') ∧ Inv g s' ∧ remaining g s' < remaining g s := by
  cases hpath : s.path with
  | nil =>
    refine Or.inl ⟨?_,rfl⟩
    rw [step,hpath]
  | cons top path =>
    obtain ⟨node,edge⟩ := top
    have hnode : node ∈ s.nodes := by
      rw [Search.nodes,hpath]
      exact List.mem_cons_self
    have hlt := h.bound node ((h.placed node).mpr (Or.inl (h.onStack node hnode)))
    have hedges : g.callees[node]? = some g.callees[node] := List.getElem?_eq_getElem hlt
    refine Or.inr ?_
    cases hcallee : g.callees[node][edge]? with
    | some c => exact h.follow hpath hedges hcallee
    | none =>
      simp only [step,hpath,hedges,hcallee]
      by_cases hlow : s.low node = s.order node
      · obtain ⟨closed,hclose,hinv,hless⟩ := h.finish_group hpath hedges hcallee hlow
        rw [hclose]
        exact ⟨_,rfl,hinv,hless⟩
      · have hback := h.finish_back hpath hedges hcallee (lt_of_le_of_ne (h.low_le hnode) hlow)
        rw [Search.close,if_neg hlow]
        exact ⟨_,rfl,hback⟩

theorem close_order {closed : Search} (h : s.close node = .ok closed) : closed.order = s.order := by
  rw [Search.close] at h
  split_ifs at h with hlow
  · cases hpop : popGroup node s.stack [] with
    | error stop =>
      rw [hpop] at h
      cases h
    | ok popped =>
      rw [hpop] at h
      cases h
      rfl
  · cases h
    rfl

theorem back_order : (s.back node path).order = s.order := by cases path <;> rfl

theorem Inv.step_seen {s' : Search} (h : Inv g s) (hs : step g s = .ok (.next s')) (hw : 0 ≤ s.order w) : 0 ≤ s'.order w := by
  rw [step] at hs
  split at hs
  next => cases hs
  next node edge path hpath =>
    split at hs
    next => cases hs
    next edges hedges =>
      split at hs
      next c hcallee =>
        cases hs
        split_ifs with hnew
        · by_cases hwc : w = c
          · have horder : (Search.enter { s with path := (node,edge + 1) :: path } c).order w = s.visited := by
              rw [hwc]
              exact put_same
            rw [horder]
            exact h.fresh
          · have horder : (Search.enter { s with path := (node,edge + 1) :: path } c).order w = s.order w := put_other hwc
            rw [horder]
            exact hw
        · exact hw
        · exact hw
      next hcallee =>
        cases hclose : s.close node with
        | error stop =>
          rw [hclose] at hs
          cases hs
        | ok closed =>
          rw [hclose] at hs
          cases hs
          rw [back_order,close_order hclose]
          exact hw

/-! ### The whole search -/

/-- The functions up to a number were entered, and nothing is left of the search from them. -/
def Searched (g : CallGraph) (n : ℕ) (s : Search) : Prop := Inv g s ∧ s.path = [] ∧ ∀ v < n, 0 ≤ s.order v

theorem Inv.stack_empty (h : Inv g s) (hempty : s.path = []) : s.stack = [] := by
  refine List.eq_nil_iff_forall_not_mem.mpr fun v hv => ?_
  obtain ⟨p,hp,-⟩ := h.backward v hv
  rw [Search.nodes,hempty] at hp
  cases hp

theorem remaining_le (hempty : s.path = []) : remaining g s ≤ g.size := by
  rw [remaining,hempty,List.map_nil,List.sum_nil,Nat.add_zero,CallGraph.size]
  refine Finset.sum_le_sum fun v _ => ?_
  split_ifs
  · exact le_refl _
  · exact Nat.zero_le _

theorem searchFrom_spec (h : Searched g v s) (hroot : v < g.callees.length) : ∃ s', searchFrom g s v = .ok s' ∧ Searched g (v + 1) s' := by
  obtain ⟨hinv,hempty,hseen⟩ := h
  rw [searchFrom]
  by_cases hv : 0 ≤ s.order v
  · rw [if_pos hv]
    refine ⟨s,rfl,hinv,hempty,fun w hw => ?_⟩
    rcases Nat.lt_succ_iff_lt_or_eq.mp hw with hw | rfl
    · exact hseen w hw
    · exact hv
  · rw [if_neg hv]
    have hnew : s.order v < 0 := not_le.mp hv
    have hreset : { s with path := [] } = s := by rw [← hempty]
    rw [hreset]
    have hstack := hinv.stack_empty hempty
    have hentered := hinv.enter hnew hroot fun w hw => by
      rw [hstack] at hw
      cases hw
    have hall : ∀ w < v + 1, 0 ≤ (s.enter v).order w := by
      intro w hw
      by_cases hwv : w = v
      · have horder : (s.enter v).order w = s.visited := by
          rw [hwv]
          exact put_same
        rw [horder]
        exact hinv.fresh
      · have horder : (s.enter v).order w = s.order w := put_other hwv
        rw [horder]
        exact hseen w (by omega)
    refine loop_ok (I := fun s => Inv g s ∧ ∀ w < v + 1, 0 ≤ s.order w) (Q := Searched g (v + 1)) (remaining g) ?_ ⟨hentered,hall⟩ ?_
    · rintro s ⟨hinv,hall⟩
      rcases hinv.round with ⟨hdone,hempty⟩ | ⟨s',hnext,hinv',hless⟩
      · exact Or.inl ⟨s,hdone,hinv,hempty,hall⟩
      · exact Or.inr ⟨s',hnext,⟨hinv',fun w hw => hinv.step_seen hnext (hall w hw)⟩,hless⟩
    · rw [remaining_enter hnew hroot hinv.fresh]
      exact Nat.lt_succ_of_le (remaining_le hempty)

theorem componentsOf_spec (g : CallGraph) : ∃ s, componentsOf g = .ok s.groups ∧ Inv g s ∧ ∀ v, v ∈ s.groups.flatten ↔ v < g.callees.length := by
  have hfold := foldlM_range (f := searchFrom g) (n := g.callees.length) (I := Searched g)
    (fun i hi s h => searchFrom_spec h hi) (b := start) ⟨inv_start,rfl,fun v hv => absurd hv (Nat.not_lt_zero v)⟩
  obtain ⟨s,hs,hinv,hempty,hseen⟩ := hfold
  refine ⟨s,?_,hinv,fun v => ?_⟩
  · rw [componentsOf,hs]
    rfl
  · have hplaced := hinv.placed v
    rw [hinv.stack_empty hempty,or_iff_right List.not_mem_nil] at hplaced
    rw [← hplaced]
    exact ⟨hinv.bound v,hseen v⟩

theorem index_unique {groups : List (List ℕ)} (hn : groups.flatten.Nodup) {i j : ℕ} {group other : List ℕ} (hi : groups[i]? = some group)
    (hj : groups[j]? = some other) (hv : v ∈ group) (hv' : v ∈ other) : i = j := by
  have hdisjoint := List.pairwise_iff_getElem.mp (List.nodup_flatten.mp hn).2
  obtain ⟨hilt,rfl⟩ := List.getElem?_eq_some_iff.mp hi
  obtain ⟨hjlt,rfl⟩ := List.getElem?_eq_some_iff.mp hj
  rcases Nat.lt_trichotomy i j with hlt | heq | hlt
  · exact (hdisjoint i j hilt hjlt hlt hv hv').elim
  · exact heq
  · exact (hdisjoint j i hjlt hilt hlt hv' hv).elim

/-- The groups are the components of the calls, each after every other component its functions call: each function is in just one of them,
two functions are in the same one exactly if each reaches the other, and a call that leaves a group goes into a group before it. -/
theorem components_ordered (g : CallGraph) : ∃ groups : List (List ℕ), componentsOf g = .ok groups ∧
    (∀ group ∈ groups, group ≠ [] ∧ group.Nodup ∧ ∀ v ∈ group, v < g.callees.length) ∧
    (∀ v < g.callees.length, ∃! i : ℕ, ∃ group : List ℕ, groups[i]? = some group ∧ v ∈ group) ∧
    (∀ v < g.callees.length, ∀ w < g.callees.length,
      (∃ group ∈ groups, v ∈ group ∧ w ∈ group) ↔ ReflTransGen g.Calls v w ∧ ReflTransGen g.Calls w v) ∧
    ∀ (i j : ℕ) (group other : List ℕ), groups[i]? = some group → groups[j]? = some other → i ≠ j →
      (∃ v ∈ group, ∃ w ∈ other, g.Calls v w) → j < i := by
  obtain ⟨s,hs,hinv,hall⟩ := componentsOf_spec g
  refine ⟨s.groups,hs,fun group hgroup => ⟨hinv.filled group hgroup,(List.nodup_flatten.mp hinv.nodup).1 group hgroup,fun v hv => ?_⟩,
    fun v hv => ?_,fun v hv w hw => ⟨?_,fun hmutual => ?_⟩,?_⟩
  · exact (hall v).mp (List.mem_flatten.mpr ⟨group,hgroup,hv⟩)
  · obtain ⟨group,hgroup,hmem⟩ := List.mem_flatten.mp ((hall v).mpr hv)
    obtain ⟨i,hi⟩ := List.mem_iff_getElem?.mp hgroup
    exact ⟨i,⟨group,hi,hmem⟩,fun j ⟨other,hj,hmem'⟩ => index_unique hinv.nodup hj hi hmem' hmem⟩
  · rintro ⟨group,hgroup,hvg,hwg⟩
    exact (hinv.components group hgroup v hvg w).mp hwg
  · obtain ⟨group,hgroup,hmem⟩ := List.mem_flatten.mp ((hall v).mpr hv)
    exact ⟨group,hgroup,hmem,(hinv.components group hgroup v hmem w).mpr hmutual⟩
  · rintro i j group other hi hj hne ⟨v,hv,w,hw,hcalls⟩
    obtain ⟨k,hk,next,hnext,hwn⟩ := hinv.closed i group hi v hv w hcalls
    have hkj : k = j := index_unique hinv.nodup hnext hj hwn hw
    omega

end Ens.Inlining
