import Ens.Narrow.Journal

/-! # Branches that leave nothing behind

While branches are analyzed the journal can put back what held where they started, whatever is established, erased,
pushed and popped, as long as no clearing removes a write it does not record.
-/
set_option linter.all false
namespace Ens.Narrow
open Entries Undo
variable {P T E : Type} [DecidableEq P] {s t c : State P T E} {j : Journal P T E} {js : List (Journal P T E)} {p q : P} {n : ℕ}
variable {e : LayerEntry P T E} {a : ℕ × P}

namespace State

/-! ### Putting back -/

theorem lookup_put {V : Type} {m : List (P × V)} {x : Option V} : lookup (put m p x) q = if q = p then x else lookup m q := by
  by_cases hq : q = p
  · subst hq
    rw [if_pos rfl]
    cases x with
    | none => exact lookup_erase_self
    | some v =>
      rw [put,insert_absent lookup_erase_self]
      simp [lookup]
  · rw [if_neg hq]
    cases x with
    | none => exact erase_other hq
    | some v => rw [put,insert_other hq,erase_other hq]

theorem restore_spec (hs : s.Filled) (he : e.1.1 < s.layers.length) : (s.restore e).Filled ∧
    (s.restore e).layers.length = s.layers.length ∧ (s.restore e).held = Function.update s.held e.1 e.2 := by
  refine ⟨(hs.fill he).modify mem_fill,List.length_modify ..,?_⟩
  funext ⟨i,q⟩
  rw [restore,held_modify]
  by_cases hi : e.1.1 = i
  · subst hi
    rw [if_pos ⟨rfl,he⟩,Layer.held]
    dsimp only
    rw [lookup_put,lookup_put,lookup_put]
    by_cases hq : q = e.1.2
    · subst hq
      rw [if_pos rfl,if_pos rfl,if_pos rfl,Function.update_self]
    · rw [if_neg hq,if_neg hq,if_neg hq,Function.update_of_ne fun h => hq (congrArg Prod.snd h)]
      rfl
  · rw [if_neg fun h => hi h.1,Function.update_of_ne fun h => hi (congrArg Prod.fst h).symm]
    rfl

theorem restores_spec {log : List (LayerEntry P T E)} (hs : s.Filled) (hl : ∀ e ∈ log, e.1.1 < s.layers.length) :
    (log.foldl restore s).Filled ∧ (log.foldl restore s).layers.length = s.layers.length ∧
      (log.foldl restore s).held = undo log s.held := by
  induction log generalizing s with
  | nil => exact ⟨hs,rfl,rfl⟩
  | cons e log ih =>
    obtain ⟨hf,hlen,hheld⟩ := restore_spec hs (hl e (List.mem_cons_self ..))
    obtain ⟨hf',hlen',hheld'⟩ := ih hf fun d hd => hlen ▸ hl d (List.mem_cons_of_mem e hd)
    rw [List.foldl_cons]
    exact ⟨hf',hlen'.trans hlen,by rw [hheld',hheld,undo_cons]⟩

theorem pops_spec (hs : s.Filled) (hn : n < s.layers.length) : (popLayer^[n] s).Filled ∧
    (popLayer^[n] s).layers.length = s.layers.length - n ∧ ∀ a : ℕ × P, a.1 < s.layers.length - n → (popLayer^[n] s).held a = s.held a := by
  induction n with
  | zero => exact ⟨hs,rfl,fun _ _ => rfl⟩
  | succ n ih =>
    obtain ⟨hf,hlen,hheld⟩ := ih (by omega)
    rw [Function.iterate_succ_apply']
    refine ⟨hf.popLayer (by omega),?_,fun a ha => ?_⟩
    · rw [popLayer,List.length_dropLast]
      omega
    · rw [held,layer_popLayer (by omega)]
      exact hheld a (by omega)

/-! ### What the journals put back -/

structure Undoes (s : State P T E) (j : Journal P T E) (c : State P T E) : Prop where
  copied : c.Filled
  depth : j.depth = c.layers.length
  reaches : j.depth ≤ s.layers.length
  low : ∀ e ∈ j.replaced, e.1.1 < j.depth
  undone : ∀ a : ℕ × P, a.1 < j.depth → undo j.replaced s.held a = c.held a

theorem Undoes.restart (h : Undoes s j c) (hs : s.Filled) (hj : s.journals = j :: js) : ∃ t, s.restartBranches = some t ∧
    t.Filled ∧ t.held = c.held ∧ t.layers.length = c.layers.length ∧ t.journals = { j with replaced := [] } :: js := by
  have hpos := h.copied.nonempty
  have hdepth := h.depth
  have hreach := h.reaches
  obtain ⟨hf,hlen,hheld⟩ := pops_spec (n := s.layers.length - j.depth) hs (by omega)
  have hlow : ∀ e ∈ j.replaced, e.1.1 < (popLayer^[s.layers.length - j.depth] s).layers.length := fun e he => by
    have := h.low e he
    omega
  obtain ⟨hf',hlen',hheld'⟩ := restores_spec hf hlow
  refine ⟨{ j.replaced.foldl restore (popLayer^[s.layers.length - j.depth] s) with journals := { j with replaced := [] } :: js },
    ?_,hf'.congr rfl rfl,?_,?_,rfl⟩
  · rw [restartBranches,hj]
    dsimp only
    exact if_pos (List.all_eq_true.mpr fun e he => decide_eq_true (hlow e he))
  · funext a
    by_cases ha : a.1 < j.depth
    · refine (congrFun hheld' a).trans ?_
      rw [← h.undone a ha]
      exact undo_congr (.inr (hheld a (by omega)))
    · obtain ⟨i,q⟩ := a
      dsimp only at ha
      rw [held_beyond (by dsimp only; omega),held_beyond (by omega)]
  · dsimp only
    omega

theorem Undoes.finish (h : Undoes s j c) (hs : s.Filled) (hj : s.journals = j :: js) : ∃ t, s.endBranches = some t ∧
    t.Filled ∧ t.held = c.held ∧ t.layers.length = c.layers.length ∧ t.journals = js := by
  obtain ⟨t,ht,hf,hheld,hlen,hjs⟩ := h.restart hs hj
  refine ⟨{ t with journals := t.journals.tail },by rw [endBranches,ht]; rfl,hf.congr rfl rfl,hheld,hlen,?_⟩
  rw [hjs]
  rfl

theorem mem_takeWhile_sorted {l : List ℕ} {i d : ℕ} (hl : l.Pairwise (· > ·)) (hi : i ∈ l) (hd : i ≥ d) :
    i ∈ l.takeWhile fun i => i ≥ d := by
  induction l with
  | nil => exact hi
  | cons f l ih =>
    obtain ⟨hf,hl⟩ := List.pairwise_cons.mp hl
    have hfd : f ≥ d := by
      rcases List.mem_cons.mp hi with rfl | hi
      · exact hd
      · exact Nat.le_trans hd (Nat.le_of_lt (hf i hi))
    rw [List.takeWhile_cons_of_pos (by simpa using hfd)]
    rcases List.mem_cons.mp hi with rfl | hi
    · exact List.mem_cons_self ..
    · exact List.mem_cons_of_mem f (ih hl hi)

theorem lookup_keys {V : Type} {m : List (P × V)} (h : p ∉ m.map Prod.fst) : lookup m p = none :=
  lookup_none_iff.mpr fun e he => by simpa using fun hep : e.1 = p => h (List.mem_map.mpr ⟨e,he,hep⟩)

/-- What a path is said of otherwise than where the branches started is among the places changed. -/
theorem Undoes.changed (h : Undoes s j c) (hs : s.Filled) (hj : s.journals = j :: js) (hp : p ∉ s.changedPlaces) :
    s.answers p = c.answers p := by
  rw [changedPlaces,hj] at hp
  obtain ⟨hreplaced,hlayers⟩ := not_or.mp (fun h => hp (List.mem_append.mpr h))
  refine hs.answers_congr h.copied fun i => ?_
  by_cases hi : i < j.depth
  · have habsent : ¬Logged j.replaced (i,p) := by
      rintro ⟨e,he,hea⟩
      exact hreplaced (List.mem_map.mpr ⟨e,he,by rw [hea]⟩)
    rw [← h.undone (i,p) hi,undo_absent habsent]
  · have hdepth := h.depth
    rw [held_beyond (s := c) (by omega)]
    by_cases hmem : i ∈ s.filled
    · have hkeys := fun hk => hlayers (List.mem_flatMap.mpr ⟨i,mem_takeWhile_sorted hs.sorted hmem (Nat.le_of_not_lt hi),hk⟩)
      rw [held,Layer.held,lookup_keys fun hk => hkeys (List.mem_append_left _ (List.mem_append_left _ hk)),
        lookup_keys fun hk => hkeys (List.mem_append_left _ (List.mem_append_right _ hk)),
        lookup_keys fun hk => hkeys (List.mem_append_right _ hk)]
    · exact hs.held hmem

/-! ### What each operation keeps -/

theorem Undoes.kept (h : Undoes s j c) (hk : Kept s t) (hj : s.journals = j :: js) :
    ∃ k, t.journals = k :: js ∧ Undoes t k c := by
  obtain ⟨new,hlogs⟩ := hk
  have hhead : j ∈ s.journals.head? := by
    rw [hj]
    rfl
  refine ⟨{ j with replaced := new ++ j.replaced },by rw [hlogs.journals,hj]; rfl,h.copied,h.depth,hlogs.length j hhead h.reaches,
    fun e he => ?_,fun a ha => ?_⟩
  · rcases List.mem_append.mp he with he | he
    · exact hlogs.low j hhead e he
    · exact h.low e he
  · rw [undo_append,← h.undone a ha]
    exact undo_congr (.inr (hlogs.undone j hhead a ha))

theorem Filled.start (hs : s.Filled) : Undoes s.startBranches ⟨s.layers.length,[]⟩ s.copy :=
  ⟨hs.congr rfl rfl,rfl,Nat.le_refl _,nofun,fun _ _ => rfl⟩

def Restores (s : State P T E) : List (State P T E) → List (Journal P T E) → Prop
  | [],_ => True
  | _ :: _,[] => False
  | c :: cs,j :: js => Undoes s j c ∧ Restores c cs js

theorem Undoes.congr (h : Undoes s j c) (hl : t.layers.length = s.layers.length) (hh : t.held = s.held) : Undoes t j c :=
  ⟨h.copied,h.depth,hl ▸ h.reaches,h.low,hh ▸ h.undone⟩

theorem Restores.congr {cs : List (State P T E)} (h : Restores s cs js) (hl : t.layers.length = s.layers.length)
    (hh : t.held = s.held) : Restores t cs js := by
  cases cs with
  | nil => exact trivial
  | cons c cs =>
    cases js with
    | nil => exact h
    | cons j js => exact ⟨h.1.congr hl hh,h.2⟩

theorem Restores.kept {cs : List (State P T E)} (h : Restores s cs s.journals) (hk : Kept s t) : Restores t cs t.journals := by
  cases cs with
  | nil => exact trivial
  | cons c cs =>
    cases hj : s.journals with
    | nil =>
      rw [hj] at h
      exact h.elim
    | cons j js =>
      rw [hj] at h
      obtain ⟨k,hk,hundoes⟩ := h.1.kept hk hj
      rw [hk]
      exact ⟨hundoes,h.2⟩

end State

/-! ### Runs -/

variable {B F : Type} [DecidableEq B] [DecidableEq F]

inductive Op (B F T E : Type)
  | narrow (path : NarrowingPath B F) (proven : T)
  | noteWrite (path : NarrowingPath B F) (write : E)
  | endProof (path : NarrowingPath B F) (ended : E)
  | clearForRoot (root : B) (ended : E)
  | clearPrefixedBy (written : NarrowingPath B F) (ended : E)
  | renewForRoot (root : B) (ended : E)
  | renewPrefixedBy (written : NarrowingPath B F) (ended : E)
  | clearPath (path : NarrowingPath B F)
  | push
  | pop
  | startBranches
  | restartBranches
  | endBranches

def Op.act (s : State (NarrowingPath B F) T E) : Op B F T E → Option (State (NarrowingPath B F) T E)
  | narrow path proven => some (s.narrow path proven)
  | noteWrite path write => some (s.noteWrite path write)
  | endProof path ended => some (s.endProof path ended)
  | clearForRoot root ended => some (s.clearForRoot root ended)
  | clearPrefixedBy written ended => some (s.clearPrefixedBy written ended)
  | renewForRoot root ended => some (s.renewForRoot root ended)
  | renewPrefixedBy written ended => some (s.renewPrefixedBy written ended)
  | clearPath path => some (s.clearPath path)
  | push => some s.push
  | pop => some s.pop
  | startBranches => some s.startBranches
  | restartBranches => s.restartBranches
  | endBranches => s.endBranches

def Op.clears : Op B F T E → NarrowingPath B F → Bool
  | endProof path _,key => key = path
  | clearForRoot root _,key => key.rootedAt root
  | clearPrefixedBy written _,key => startsWith key written
  | _,_ => false

/-- One step, beside the copies taken where the branches that are analyzed started. No layer that held there is popped. -/
def step (x : State (NarrowingPath B F) T E × List (State (NarrowingPath B F) T E)) (op : Op B F T E) :
    Option (State (NarrowingPath B F) T E × List (State (NarrowingPath B F) T E)) :=
  match op,x.2 with
  | .startBranches,cs => some (x.1.startBranches,x.1.copy :: cs)
  | .restartBranches,[] => none
  | .endBranches,[] => none
  | .endBranches,_ :: cs => x.1.endBranches.map fun s => (s,cs)
  | .pop,c :: cs => if c.layers.length < x.1.layers.length then some (x.1.pop,c :: cs) else none
  | op,cs => (op.act x.1).map fun s => (s,cs)

inductive Run : State (NarrowingPath B F) T E × List (State (NarrowingPath B F) T E) →
    State (NarrowingPath B F) T E × List (State (NarrowingPath B F) T E) → Prop
  | refl {x : State (NarrowingPath B F) T E × List (State (NarrowingPath B F) T E)} : Run x x
  | step {x y z : State (NarrowingPath B F) T E × List (State (NarrowingPath B F) T E)} {op : Op B F T E} : Run x y → y.1.ClearsRecorded op.clears → step y op = some z → Run x z

inductive Reachable : State (NarrowingPath B F) T E → Prop
  | new : Reachable State.new
  | ofProven (proven : List (NarrowingPath B F × T)) : Reachable (State.ofProven proven)
  | act {s t : State (NarrowingPath B F) T E} {op : Op B F T E} : Reachable s → op.act s = some t → Reachable t
  | copy {s : State (NarrowingPath B F) T E} : Reachable s → Reachable s.copy
  | restoreLayers {s t : State (NarrowingPath B F) T E} : Reachable s → Reachable t → Reachable (s.restoreLayers t.snapshotLayers)

namespace State

theorem Sane.change {i : ℕ} {f : Layer P T E → Layer P T E} (hs : s.Sane) (hi : i < s.layers.length) :
    (((s.record i p).fill i).modify i f).Sane := by
  refine ⟨((hs.filled.record.fill ?_).modify mem_fill),?_⟩
  · rwa [record_layers.1]
  · rw [modify,fill]
    dsimp only
    rw [record_only.depths]
    exact hs.depths

theorem Sane.clearWhere {accepted : P → Bool} {w : E} (hs : s.Sane) : (s.clearWhere accepted w).Sane :=
  hs.only (filled_only fun _ _ => clearLayer_only)

theorem Sane.renewWhere {accepted : P → Bool} {w : E} (hs : s.Sane) : (s.renewWhere accepted w).Sane :=
  hs.only (filled_only fun _ _ => renewLayer_only)

theorem Sane.endProof {w : E} (hs : s.Sane) : (s.endProof p w).Sane := by
  have hcleared : ((s.clearWhere (fun key => key = p) w).renewWhere (fun key => key = p) w).Sane := hs.clearWhere.renewWhere
  unfold State.endProof
  dsimp only
  split
  · exact hcleared.change hcleared.filled.top
  · exact hcleared

theorem Sane.restart (hs : s.Sane) (h : s.restartBranches = some t) : t.Sane := by
  unfold restartBranches at h
  split at h
  · cases h
  · rename_i j js hj
    have hpos : 0 < j.depth := hs.depths j.depth (by rw [hj]; exact List.mem_cons_self ..)
    have hlen := hs.filled.nonempty
    dsimp only at h
    split at h
    · rename_i hlow
      cases h
      obtain ⟨hf,-,-⟩ := pops_spec (n := s.layers.length - j.depth) hs.filled (by omega)
      obtain ⟨hf',-,-⟩ := restores_spec hf fun e he => of_decide_eq_true (List.all_eq_true.mp hlow e he)
      refine ⟨hf'.congr rfl rfl,?_⟩
      have hd := hs.depths
      rw [hj] at hd
      exact hd
    · cases h

theorem Sane.finish (hs : s.Sane) (h : s.endBranches = some t) : t.Sane := by
  obtain ⟨u,hu,rfl⟩ := Option.map_eq_some_iff.mp h
  have hsane := hs.restart hu
  refine ⟨hsane.filled.congr rfl rfl,fun d hd => hsane.depths d ?_⟩
  obtain ⟨j,hj,rfl⟩ := List.mem_map.mp hd
  exact List.mem_map.mpr ⟨j,List.mem_of_mem_tail hj,rfl⟩

end State

theorem sane_act {s t : State (NarrowingPath B F) T E} {op : Op B F T E} (hs : s.Sane) (h : op.act s = some t) : t.Sane := by
  cases op with
  | narrow =>
    cases h
    exact hs.change hs.filled.top
  | noteWrite =>
    cases h
    exact hs.change hs.filled.top
  | endProof =>
    cases h
    exact hs.endProof
  | clearForRoot =>
    cases h
    exact hs.clearWhere
  | clearPrefixedBy =>
    cases h
    exact hs.clearWhere
  | renewForRoot =>
    cases h
    exact hs.renewWhere
  | renewPrefixedBy =>
    cases h
    exact hs.renewWhere
  | clearPath =>
    cases h
    exact hs.only (State.filled_only fun _ _ => State.clearPathIn_only)
  | push =>
    cases h
    exact ⟨hs.filled.push,hs.depths⟩
  | pop =>
    cases h
    exact hs.pop
  | startBranches =>
    cases h
    exact hs.start
  | restartBranches => exact hs.restart h
  | endBranches => exact hs.finish h

theorem Reachable.sane {s : State (NarrowingPath B F) T E} (h : Reachable s) : s.Sane := by
  induction h with
  | new => exact State.sane_new
  | ofProven proven => exact State.sane_ofProven proven
  | act _ hact ih => exact sane_act ih hact
  | copy _ ih => exact ih.copy
  | restoreLayers _ _ ih ih' => exact ih.restoreLayers ih'

structure Tracked (x : State (NarrowingPath B F) T E × List (State (NarrowingPath B F) T E)) : Prop where
  sane : x.1.Sane
  restores : x.1.Restores x.2 x.1.journals

/-- What an operation does to a state besides starting, restarting and ending branches is recorded. -/
theorem kept_act {s t : State (NarrowingPath B F) T E} {op : Op B F T E} (hs : s.Sane) (hc : s.ClearsRecorded op.clears)
    (h : op.act s = some t) (hop : op ≠ .pop ∧ op ≠ .startBranches ∧ op ≠ .restartBranches ∧ op ≠ .endBranches) : s.Kept t := by
  cases op with
  | narrow =>
    cases h
    exact State.narrow_kept
  | noteWrite =>
    cases h
    exact State.noteWrite_kept
  | endProof =>
    cases h
    exact State.endProof_kept hs.filled hc
  | clearForRoot =>
    cases h
    exact State.clearWhere_kept hs.filled hc
  | clearPrefixedBy =>
    cases h
    exact State.clearWhere_kept hs.filled hc
  | renewForRoot =>
    cases h
    exact State.renewWhere_kept
  | renewPrefixedBy =>
    cases h
    exact State.renewWhere_kept
  | clearPath =>
    cases h
    exact State.clearPath_kept
  | push =>
    cases h
    exact State.push_kept
  | pop => exact absurd rfl hop.1
  | startBranches => exact absurd rfl hop.2.1
  | restartBranches => exact absurd rfl hop.2.2.1
  | endBranches => exact absurd rfl hop.2.2.2

namespace State

theorem Restores.innermost {cs : List (State P T E)} (h : Restores s (c :: cs) s.journals) :
    ∃ j js, s.journals = j :: js ∧ Undoes s j c ∧ Restores c cs js := by
  cases hj : s.journals with
  | nil =>
    rw [hj] at h
    exact h.elim
  | cons j js =>
    rw [hj] at h
    exact ⟨j,js,rfl,h⟩

theorem Restores.restart {cs : List (State P T E)} (h : Restores s (c :: cs) s.journals) (hs : s.Filled)
    (ht : s.restartBranches = some t) : Restores t (c :: cs) t.journals := by
  obtain ⟨j,js,hj,hundoes,hrest⟩ := h.innermost
  obtain ⟨t',ht',-,hheld,hlen,hjs⟩ := hundoes.restart hs hj
  obtain rfl := Option.some.inj (ht'.symm.trans ht)
  rw [hjs]
  exact ⟨⟨hundoes.copied,hundoes.depth,Nat.le_of_eq (hundoes.depth.trans hlen.symm),nofun,fun a _ => by rw [hheld]; rfl⟩,hrest⟩

theorem Restores.finish {cs : List (State P T E)} (h : Restores s (c :: cs) s.journals) (hs : s.Filled)
    (ht : s.endBranches = some t) : Restores t cs t.journals := by
  obtain ⟨j,js,hj,hundoes,hrest⟩ := h.innermost
  obtain ⟨t',ht',-,hheld,hlen,hjs⟩ := hundoes.finish hs hj
  obtain rfl := Option.some.inj (ht'.symm.trans ht)
  rw [hjs]
  exact hrest.congr hlen hheld

end State

theorem step_cases {s : State (NarrowingPath B F) T E} {cs : List (State (NarrowingPath B F) T E)} {op : Op B F T E}
    {y : State (NarrowingPath B F) T E × List (State (NarrowingPath B F) T E)} (h : step (s,cs) op = some y) :
    op = .startBranches ∧ y = (s.startBranches,s.copy :: cs) ∨
    op = .restartBranches ∧ (∃ c rest t, cs = c :: rest ∧ s.restartBranches = some t ∧ y = (t,c :: rest)) ∨
    op = .endBranches ∧ (∃ c rest t, cs = c :: rest ∧ s.endBranches = some t ∧ y = (t,rest)) ∨
    op = .pop ∧ (∀ c ∈ cs.head?, c.layers.length < s.layers.length) ∧ y = (s.pop,cs) ∨
    (op ≠ .pop ∧ op ≠ .startBranches ∧ op ≠ .restartBranches ∧ op ≠ .endBranches) ∧ ∃ t, op.act s = some t ∧ y = (t,cs) := by
  have hother (hop : op ≠ .pop ∧ op ≠ .startBranches ∧ op ≠ .restartBranches ∧ op ≠ .endBranches)
      (h : (op.act s).map (fun s => (s,cs)) = some y) : (op ≠ .pop ∧ op ≠ .startBranches ∧ op ≠ .restartBranches ∧ op ≠ .endBranches) ∧
        ∃ t, op.act s = some t ∧ y = (t,cs) := by
    obtain ⟨t,ht,rfl⟩ := Option.map_eq_some_iff.mp h
    exact ⟨hop,t,ht,rfl⟩
  cases op with
  | startBranches =>
    cases h
    exact .inl ⟨rfl,rfl⟩
  | restartBranches =>
    cases cs with
    | nil => cases h
    | cons c cs =>
      obtain ⟨t,ht,rfl⟩ := Option.map_eq_some_iff.mp h
      exact .inr (.inl ⟨rfl,c,cs,t,rfl,ht,rfl⟩)
  | endBranches =>
    cases cs with
    | nil => cases h
    | cons c cs =>
      obtain ⟨t,ht,rfl⟩ := Option.map_eq_some_iff.mp h
      exact .inr (.inr (.inl ⟨rfl,c,cs,t,rfl,ht,rfl⟩))
  | pop =>
    cases cs with
    | nil =>
      cases h
      exact .inr (.inr (.inr (.inl ⟨rfl,nofun,rfl⟩)))
    | cons c cs =>
      unfold step at h
      dsimp only at h
      split at h
      · rename_i hlt
        cases h
        refine .inr (.inr (.inr (.inl ⟨rfl,fun d hd => ?_,rfl⟩)))
        obtain rfl := Option.some.inj hd
        exact hlt
      · cases h
  | _ => exact .inr (.inr (.inr (.inr (hother ⟨nofun,nofun,nofun,nofun⟩ h))))

theorem Tracked.step {x y : State (NarrowingPath B F) T E × List (State (NarrowingPath B F) T E)} {op : Op B F T E}
    (hx : Tracked x) (hc : x.1.ClearsRecorded op.clears) (h : step x op = some y) : Tracked y := by
  obtain ⟨s,cs⟩ := x
  obtain ⟨hs,hr⟩ := hx
  rcases step_cases h with ⟨-,rfl⟩ | ⟨-,c,rest,t,rfl,ht,rfl⟩ | ⟨-,c,rest,t,rfl,ht,rfl⟩ | ⟨-,hlt,rfl⟩ | ⟨hop,t,ht,rfl⟩
  · exact ⟨hs.start,hs.filled.start,hr.congr rfl rfl⟩
  · exact ⟨hs.restart ht,hr.restart hs.filled ht⟩
  · exact ⟨hs.finish ht,hr.finish hs.filled ht⟩
  · refine ⟨hs.pop,?_⟩
    cases cs with
    | nil => exact trivial
    | cons c cs =>
      obtain ⟨j,js,hj,hundoes,-⟩ := hr.innermost
      refine hr.kept (State.pop_kept fun k hk => ?_)
      dsimp only at hk
      rw [hj] at hk
      obtain rfl := Option.some.inj hk
      rw [hundoes.depth]
      exact hlt c rfl
  · exact ⟨sane_act hs ht,hr.kept (kept_act hs hc ht hop)⟩

theorem Run.tracked {x y : State (NarrowingPath B F) T E × List (State (NarrowingPath B F) T E)} (h : Run x y) (hx : Tracked x) :
    Tracked y := by
  induction h with
  | refl => exact hx
  | step _ hc hstep ih => exact ih.step hc hstep

/-- In a run from a state the checker comes to, whose steps all record the writes they remove, restarting and ending the
innermost branches put back what a copy taken at their start holds, and the places changed are all those of which the
state says otherwise. -/
theorem branches_restore {s t c : State (NarrowingPath B F) T E} {cs : List (State (NarrowingPath B F) T E)} (hs : Reachable s)
    (hrun : Run (s,[]) (t,c :: cs)) : (∃ u, t.restartBranches = some u ∧ ∀ path, u.answers path = c.answers path) ∧
      (∃ u, t.endBranches = some u ∧ ∀ path, u.answers path = c.answers path) ∧
      ∀ path, t.answers path ≠ c.answers path → path ∈ t.changedPlaces := by
  obtain ⟨hsane,hrestores⟩ := hrun.tracked ⟨hs.sane,trivial⟩
  obtain ⟨j,js,hj,hundoes,-⟩ := hrestores.innermost
  obtain ⟨u,hu,hfu,hheldu,-⟩ := hundoes.restart hsane.filled hj
  obtain ⟨v,hv,hfv,hheldv,-⟩ := hundoes.finish hsane.filled hj
  refine ⟨⟨u,hu,fun path => hfu.answers_congr hundoes.copied fun i => by rw [hheldu]⟩,
    ⟨v,hv,fun path => hfv.answers_congr hundoes.copied fun i => by rw [hheldv]⟩,fun path hne => ?_⟩
  by_contra hp
  exact hne (hundoes.changed hsane.filled hj hp)

/-! ### A write that is lost -/

def bindingPath (root : B) : NarrowingPath B F := ⟨.binding root,[]⟩

def steps (x : State (NarrowingPath B F) T E × List (State (NarrowingPath B F) T E)) : List (Op B F T E) →
    Option (State (NarrowingPath B F) T E × List (State (NarrowingPath B F) T E))
  | [] => some x
  | op :: ops => (step x op).bind fun y => steps y ops

/-- The binding `0` is proven, and in a branch that proves `1` a write that left that proof is noted. -/
def noted : State (NarrowingPath ℕ ℕ) ℕ ℕ :=
  ((State.new.narrow (bindingPath 0) 5).push.narrow (bindingPath 1) 6).noteWrite (bindingPath 0) 7

theorem noted_reachable : Reachable noted := by
  have hproven : Reachable (State.new.narrow (bindingPath 0) 5 : State (NarrowingPath ℕ ℕ) ℕ ℕ) :=
    .act .new (show Op.act _ (.narrow (bindingPath 0) 5) = _ from rfl)
  have hpushed := Reachable.act hproven (show Op.act _ .push = some _ from rfl)
  have hother := Reachable.act hpushed (show Op.act _ (.narrow (bindingPath 1) 6) = some _ from rfl)
  exact .act hother (show Op.act _ (.noteWrite (bindingPath 0) 7) = _ from rfl)

theorem noted_run : Run (noted,[]) (noted.startBranches.narrow (bindingPath 1) 8,[noted.copy]) := by
  have hstart : Run (noted,[]) (noted.startBranches,[noted.copy]) :=
    .step .refl (nofun : State.ClearsRecorded noted (Op.clears .startBranches)) rfl
  refine .step hstart (fun _ _ _ _ _ => ?_ : State.ClearsRecorded _ (Op.clears (.narrow (bindingPath 1) 8))) rfl
  exact .inr fun _ _ h => by cases h

theorem branches_restore_noted : ∃ u : State (NarrowingPath ℕ ℕ) ℕ ℕ,
    (noted.startBranches.narrow (bindingPath 1) 8).restartBranches = some u ∧ ∀ path, u.answers path = noted.copy.answers path :=
  (branches_restore noted_reachable noted_run).1

/-- The write is cleared in the layer that holds no proof of its path, and is not put back. -/
theorem branches_lose : Reachable noted ∧
    (steps (noted,[]) [.startBranches,.clearForRoot 0 9,.restartBranches]).map
      (fun x => (x.1.writeOf (bindingPath 0),x.2.map fun c => c.writeOf (bindingPath 0))) = some (none,[some 7]) :=
  ⟨noted_reachable,by decide +kernel⟩

end Ens.Narrow
