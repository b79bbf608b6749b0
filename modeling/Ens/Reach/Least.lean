import Mathlib.Data.List.Perm.Subperm
import Mathlib.Logic.Relation
import Mathlib.Order.Bounds.Basic
import Ens.Reach.Closed

/-! # Least, whatever the order

Once the worklist is empty what a walk marks is closed under the rules, and every closed set has it. No order of
serving goes on for ever, since each symbol is queued once.
-/
set_option linter.all false
namespace Ens.Reach
variable {T : Type} [DecidableEq T] {src : Source T} {libraryTypes : Option (List T)} {started : List Symbol} {w v : Walk T}
variable {M : Set (Mark T)} {s f : Symbol} {t : T} {d : Dispatch T} {library : Bool} {k : ℕ}

/-! ### Closed -/

structure Inv (src : Source T) (libraryTypes : Option (List T)) (started : List Symbol) (w : Walk T) : Prop
    extends Whole src libraryTypes.isSome w where
  roots : ∀ s ∈ started, Reached src w s
  declared : ∀ ts, libraryTypes = some ts → ∀ t ∈ ts, t ∈ w.descriptors
  queued : ∀ s ∈ w.pending, s ∈ w.reached
  scanned : ∀ s ∈ w.reached, s ∈ w.pending ∨ Scanned src w s

theorem serves_inv (h : Inv src libraryTypes started w) (hs : Serves src libraryTypes.isSome w v) :
    Inv src libraryTypes started v := by
  cases hs with
  | @one a b s hp =>
    set u : Walk T := { w with pending := a ++ b } with hu
    have hwhole : Whole src libraryTypes.isSome u :=
      ⟨⟨h.nodup,h.bodies,h.kept⟩,h.implemented,h.pairs,h.named⟩
    obtain ⟨hg,hscanned,hv⟩ := scan_whole (s := s) hwhole
    obtain ⟨l,hr,hq⟩ := hg.fresh
    have hqueued : ∀ x ∈ w.pending, x = s ∨ x ∈ (u.scan src libraryTypes.isSome s).pending := by
      intro x hx
      rw [hp] at hx
      rw [hq]
      rcases List.mem_append.mp hx with hx | hx
      · exact .inr (List.mem_append_left _ (List.mem_append_left _ hx))
      · rcases List.mem_cons.mp hx with rfl | hx
        · exact .inl rfl
        · exact .inr (List.mem_append_left _ (List.mem_append_right _ hx))
    refine ⟨hv,fun x hx => Reached.mono hg (h.roots x hx),fun ts hts t ht => hg.descriptors t (h.declared ts hts t ht),
      fun x hx => ?_,fun x hx => ?_⟩
    · rw [hq] at hx
      rw [hr]
      rcases List.mem_append.mp hx with hx | hx
      · refine List.mem_append_left _ (h.queued x ?_)
        rw [hp]
        rcases List.mem_append.mp hx with hx | hx
        · exact List.mem_append_left _ hx
        · exact List.mem_append_right _ (List.mem_cons_of_mem s hx)
      · exact List.mem_append_right _ hx
    · rw [hr] at hx
      rcases List.mem_append.mp hx with hx | hx
      · rcases h.scanned x hx with hx | hx
        · rcases hqueued x hx with rfl | hx
          · exact .inr hscanned
          · exact .inl hx
        · exact .inr (Scanned.mono hg hx)
      · exact .inl (hq ▸ List.mem_append_right _ hx)

variable (src libraryTypes started) in
theorem start_queued : (Walk.start src libraryTypes started).pending = (Walk.start src libraryTypes started).reached := by
  have hall : Grew {} (Walk.start src libraryTypes started) :=
    Grew.trans (foldl_grew fun _ _ => nameDescriptor_grew) (foldl_grew fun _ _ => reach_grew)
  obtain ⟨l,hr,hp⟩ := hall.fresh
  rw [hr,hp]

variable (src libraryTypes started) in
theorem start_inv : Inv src libraryTypes started (Walk.start src libraryTypes started) := by
  set u : Walk T := (libraryTypes.getD []).foldl
    (fun w t => Walk.nameDescriptor src libraryTypes.isSome (src.height t + 1) w t) {} with hu
  have hu' : Whole src libraryTypes.isSome u := by
    refine foldl_keeps (fun w t _ hw => name_whole hw) ⟨⟨List.nodup_nil,nofun,nofun⟩,nofun,nofun,nofun⟩
  have hdeclared : ∀ t ∈ libraryTypes.getD [], t ∈ u.descriptors :=
    foldl_done (P := fun t v => t ∈ v.descriptors) (fun _ _ => nameDescriptor_grew)
      (fun _ _ _ => (nameDescriptor_named (Nat.lt_succ_self _)).1) fun t _ _ hg ht => hg.descriptors t ht
  have hgrew : Grew u (started.foldl (Walk.reach src) u) := foldl_grew fun _ _ => reach_grew
  refine ⟨foldl_keeps (fun w s _ hw => reach_whole hw) hu',?_,fun ts hts t ht => ?_,fun s hs => ?_,fun s hs => ?_⟩
  · exact foldl_done (P := fun s v => Reached src v s) (fun _ _ => reach_grew) (fun _ _ _ => reach_reached) fun s _ _ hg hs => hs.mono hg
  · exact hgrew.descriptors t (hdeclared t (by rwa [hts]))
  · exact start_queued src libraryTypes started ▸ hs
  · exact .inl (start_queued src libraryTypes started ▸ hs)

theorem Inv.closed (h : Inv src libraryTypes started w) (hp : w.pending = []) : Closed src w.marks libraryTypes started := by
  have hfollowed {x : Mention T} (hx : Mentioned src w.marks x) : Followed src w x := by
    obtain ⟨s,body,hs,hb,hx⟩ := hx
    rcases h.scanned s hs with hq | hscan
    · rw [hp] at hq
      cases hq
    · exact hscan body hb x hx
  refine ⟨h.roots,fun s hs => hfollowed hs,fun t ht => hfollowed ht,fun t p q ht hplan hq => (h.named t ht p hplan).1 q hq,
    fun t p ht hplan c hc => (h.named t ht p hplan).2.1 c hc,?_,?_,?_⟩
  · exact fun t d key f ht hd hh => (h.pairs t (hfollowed ht) d (hfollowed hd) key f hh).1
  · exact fun t d key f ht hd hh => (h.pairs t (hfollowed ht) d (hfollowed hd) key f hh).2
  · intro ts hts
    refine ⟨h.declared ts hts,fun t p ht hplan f hf => ((h.named t ht p hplan).2.2 ?_ f hf).2⟩
    rw [hts]
    rfl

/-! ### Least -/

structure Within (src : Source T) (M : Set (Mark T)) (w : Walk T) : Prop where
  reached : ∀ s ∈ w.reached, Mark.body s ∈ M
  descriptors : ∀ t ∈ w.descriptors, Mark.descriptor t ∈ M
  instantiated : ∀ t ∈ w.instantiated, Mentioned src M (.allocation t)
  dispatched : ∀ d ∈ w.dispatched, Mentioned src M (.dispatch d)
  keptSlots : ∀ key ∈ w.keptSlots, Mark.slot key ∈ M

omit [DecidableEq T] in
theorem reach_within (h : Within src M w) (hs : (src.bodyOf s).isSome → Mark.body s ∈ M) : Within src M (w.reach src s) := by
  unfold Walk.reach
  split
  · exact h
  · split
    · rename_i hb
      refine ⟨fun x hx => ?_,h.descriptors,h.instantiated,h.dispatched,h.keptSlots⟩
      rcases List.mem_append.mp hx with hx | hx
      · exact h.reached x hx
      · rw [List.mem_singleton.mp hx]
        exact hs hb
    · exact h

section
variable (hM : Closed src M libraryTypes started)
include hM

theorem select_within (h : Within src M w) (ht : Mentioned src M (.allocation t)) (hd : Mentioned src M (.dispatch d)) :
    Within src M (w.select src t d) := by
  obtain ⟨heq,-⟩ | ⟨key,f,hh,-,heq⟩ : w.select src t d = w ∧ _ ∨ _ := select_cases
  · rwa [heq]
  · rw [heq]
    refine reach_within ?_ (hM.implementation t d key f ht hd hh)
    unfold Walk.keep
    split
    · exact h
    · refine ⟨h.reached,h.descriptors,h.instantiated,h.dispatched,fun key' hk => ?_⟩
      rcases List.mem_append.mp hk with hk | hk
      · exact h.keptSlots key' hk
      · rw [List.mem_singleton.mp hk]
        exact hM.slot t d key f ht hd hh

theorem nameDescriptor_within (h : Within src M w) (ht : Mark.descriptor t ∈ M) :
    Within src M (Walk.nameDescriptor src libraryTypes.isSome k w t) := by
  induction k generalizing w t with
  | zero => exact h
  | succ k ih =>
    have hadd (ps : List (Plan T)) : Within src M { w with descriptors := w.descriptors ++ [t], namedPlans := ps } := by
      refine ⟨h.reached,fun x hx => ?_,h.instantiated,h.dispatched,h.keptSlots⟩
      rcases List.mem_append.mp hx with hx | hx
      · exact h.descriptors x hx
      · rw [List.mem_singleton.mp hx]
        exact ht
    rw [Walk.nameDescriptor]
    split
    · exact h
    · dsimp only
      split
      · exact hadd _
      · rename_i plan hp
        refine foldl_keeps (fun v a ha hv => ih hv ?_) ?_
        · rcases List.mem_append.mp ha with ha | ha
          · exact hM.parent t plan a ht hp (Option.mem_toList.mp ha)
          · obtain ⟨c,hc,rfl⟩ := List.mem_map.mp ha
            exact hM.interface t plan ht hp c hc
        · split
          · rename_i hlib
            obtain ⟨ts,hts⟩ := Option.isSome_iff_exists.mp hlib
            refine foldl_keeps (fun v f hf hv => ?_) (hadd _)
            exact reach_within ⟨hv.reached,hv.descriptors,hv.instantiated,hv.dispatched,hv.keptSlots⟩
              ((hM.library ts hts).2 t plan ht hp f hf)
          · exact hadd _

theorem follow_within {x : Mention T} (h : Within src M w) (hx : Mentioned src M x) :
    Within src M (w.follow src libraryTypes.isSome x) := by
  cases x with
  | symbol s => exact reach_within h (hM.symbol s hx)
  | descriptor t => exact nameDescriptor_within hM h (hM.descriptor t hx)
  | allocation t =>
    rw [Walk.follow,Walk.instantiate]
    split
    · exact h
    · have hadd : Within src M { w with instantiated := w.instantiated ++ [t] } := by
        refine ⟨h.reached,h.descriptors,fun x ht => ?_,h.dispatched,h.keptSlots⟩
        rcases List.mem_append.mp ht with ht | ht
        · exact h.instantiated x ht
        · rwa [List.mem_singleton.mp ht]
      exact foldl_keeps (fun v d hd hv => select_within hM hv hx (h.dispatched d hd)) hadd
  | dispatch d =>
    rw [Walk.follow,Walk.dispatch]
    split
    · exact h
    · have hadd : Within src M { w with dispatched := w.dispatched ++ [d] } := by
        refine ⟨h.reached,h.descriptors,h.instantiated,fun x hd => ?_,h.keptSlots⟩
        rcases List.mem_append.mp hd with hd | hd
        · exact h.dispatched x hd
        · rwa [List.mem_singleton.mp hd]
      exact foldl_keeps (fun v t ht hv => select_within hM hv (h.instantiated t ht) hx) hadd

theorem serves_within (h : Within src M w) (hq : ∀ s ∈ w.pending, s ∈ w.reached) (hs : Serves src libraryTypes.isSome w v) :
    Within src M v := by
  cases hs with
  | @one a b s hp =>
    have hmem : Mark.body s ∈ M := h.reached s (hq s (by rw [hp]; simp))
    rw [Walk.scan]
    split
    · exact ⟨h.reached,h.descriptors,h.instantiated,h.dispatched,h.keptSlots⟩
    · rename_i body hb
      refine foldl_keeps (fun v x hx hv => follow_within hM hv ⟨s,body,hmem,hb,hx⟩) ?_
      exact ⟨h.reached,h.descriptors,h.instantiated,h.dispatched,h.keptSlots⟩

theorem start_within : Within src M (Walk.start src libraryTypes started) := by
  refine foldl_keeps (fun v s hs hv => reach_within hv (hM.root s hs)) ?_
  refine foldl_keeps (fun v t ht hv => nameDescriptor_within hM hv ?_) ⟨nofun,nofun,nofun,nofun,nofun⟩
  cases hl : libraryTypes with
  | none => simp [hl] at ht
  | some ts => exact (hM.library ts hl).1 t (by simpa [hl] using ht)

end

/-- The state of a walk from some roots, in any order of serving. -/
def Walks (src : Source T) (libraryTypes : Option (List T)) (started : List Symbol) (w : Walk T) : Prop :=
  Relation.ReflTransGen (Serves src libraryTypes.isSome) (Walk.start src libraryTypes started) w

theorem Walks.inv (h : Walks src libraryTypes started w) : Inv src libraryTypes started w := by
  induction h with
  | refl => exact start_inv ..
  | tail _ hs ih => exact serves_inv ih hs

theorem Walks.within (h : Walks src libraryTypes started w) (hM : Closed src M libraryTypes started) : Within src M w := by
  induction h with
  | refl => exact start_within hM
  | tail h hs ih => exact serves_within hM ih (Walks.inv h).queued hs

theorem Walks.least (h : Walks src libraryTypes started w) (hp : w.pending = []) :
    IsLeast {M | Closed src M libraryTypes started} w.marks := by
  refine ⟨h.inv.closed hp,fun M hM m hm => ?_⟩
  have hw := h.within hM
  cases m with
  | body s => exact hw.reached s hm
  | descriptor t => exact hw.descriptors t hm
  | slot key => exact hw.keptSlots key hm

/-! ### Every order ends -/

def togo (src : Source T) (w : Walk T) : ℕ := src.defined.length - w.reached.length + w.pending.length

theorem reached_length (h : Inv src libraryTypes started w) : w.reached.length ≤ src.defined.length :=
  (List.subperm_of_subset h.nodup fun s hs => src.mem_defined s (h.bodies s hs)).length_le

theorem serves_togo (h : Inv src libraryTypes started w) (hs : Serves src libraryTypes.isSome w v) : togo src v + 1 = togo src w := by
  have hv := reached_length (serves_inv h hs)
  cases hs with
  | @one a b s hp =>
    have hwhole : Whole src libraryTypes.isSome { w with pending := a ++ b } :=
      ⟨⟨h.nodup,h.bodies,h.kept⟩,h.implemented,h.pairs,h.named⟩
    obtain ⟨l,hr,hq⟩ := (scan_whole (s := s) hwhole).1.fresh
    rw [hr,List.length_append] at hv
    rw [togo,togo,hr,hq,hp]
    simp only [List.length_append,List.length_cons] at hv ⊢
    omega

theorem Walks.ends (h : Walks src libraryTypes started w) : Acc (fun v w => Serves src libraryTypes.isSome w v) w := by
  induction hk : togo src w generalizing w with
  | zero => exact ⟨w,fun v hs => absurd (serves_togo h.inv hs) (by omega)⟩
  | succ k ih => exact ⟨w,fun v hs => ih (h.tail hs) (by have := serves_togo h.inv hs; omega)⟩

theorem serve_walks (h : Walks src libraryTypes started w) (hk : togo src w ≤ k) :
    Walks src libraryTypes started (Walk.serve src libraryTypes.isSome k w) ∧ (Walk.serve src libraryTypes.isSome k w).pending = [] := by
  induction k generalizing w with
  | zero =>
    refine ⟨h,List.eq_nil_of_length_eq_zero ?_⟩
    have : w.pending.length ≤ togo src w := Nat.le_add_left ..
    rw [Walk.serve]
    omega
  | succ k ih =>
    rw [Walk.serve]
    split
    · rename_i hnone
      exact ⟨h,List.getLast?_eq_none_iff.mp hnone⟩
    · rename_i s hs
      have hsplit : w.pending = w.pending.dropLast ++ s :: [] := (List.dropLast_append_getLast? s hs).symm
      have hserves : Serves src libraryTypes.isSome w _ := Serves.one hsplit
      rw [List.append_nil] at hserves
      exact ih (h.tail hserves) (by have := serves_togo h.inv hserves; omega)

variable (src libraryTypes started) in
theorem walkFrom_walks : ∃ w, Walks src libraryTypes started w ∧ w.pending = [] ∧
    walkFrom src started libraryTypes = w.found libraryTypes.isSome started := by
  have hstart : togo src (Walk.start src libraryTypes started) ≤ src.defined.length := by
    have hle := reached_length (start_inv src libraryTypes started)
    rw [togo,start_queued]
    omega
  obtain ⟨hw,hp⟩ := serve_walks (Relation.ReflTransGen.refl : Walks src libraryTypes started _) hstart
  exact ⟨_,hw,hp,rfl⟩

end Ens.Reach
