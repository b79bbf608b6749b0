import Ens.Logic.Links
import Ens.Logic.Loop
import Ens.Text.Decode
import Mathlib.Data.List.Induction
import Mathlib.Data.List.Nodup
import Mathlib.Data.List.Pairwise
import Mathlib.Data.List.Perm.Subperm

/-! # The order classes are laid out in

A class is laid out behind its base, so the cycles of inheritance are broken first: the first class found on a cycle is reported and loses its
base. The classes are then sorted by how far they are from a class without a base, those equally far in their order.
-/
set_option linter.all false
namespace Ens.Layout
open Links Loop Decode
variable {C : Type} [DecidableEq C]

/-! ### Breaking cycles -/

/-- What a class names as its base: a class, a generic class applied to arguments, or a type no class stands for. -/
inductive Base (C : Type)
  | declared (base : C)
  | instantiation (template : C)
  | other

/-- The class a type stands for; a generic class applied to arguments stands for its template. -/
def authorityOf : Base C → Option C
  | .declared base => some base
  | .instantiation template => some template
  | .other => none

structure State (C : Type) where
  base : C → Option (Base C)
  directSubclasses : C → List C

namespace State

def baseAuthority (s : State C) (classType : C) : Option C :=
  match s.base classType with
  | none => none
  | some base => authorityOf base

def removeDirectSubclass (s : State C) (classType subclass : C) : State C :=
  { s with directSubclasses := fun c =>
      if c = classType then (s.directSubclasses c).filter (· ≠ subclass) else s.directSubclasses c }

def clearBase (s : State C) (classType : C) : State C :=
  { s with base := fun c => if c = classType then none else s.base c }

end State

structure Report (C : Type) where
  item : C
  chain : List C

/-- One step up the bases of a class: whether the walk is over, and then whether it came back to the class. -/
def chainRound (s : State C) (classType : C) : List C × Option C → Except Stop (Loop.Flow (List C × Option C) (Bool × List C))
  | (seen,none) => .ok (.done (false,seen))
  | (seen,some current) =>
    if current ∈ seen then .ok (.done (decide (current = classType),seen))
    else .ok (.next (seen ++ [current],s.baseAuthority current))

/-- The walk up the bases of a class. No class is seen twice, so that there are no more rounds than classes. -/
def findCycle (items : List C) (s : State C) (classType : C) : Except Stop (Bool × List C) :=
  loop .endless (chainRound s classType) (items.length + 2) ([],some classType)

def breakAt (s : State C) (classType : C) : State C :=
  let s := match s.baseAuthority classType with
    | some authority => s.removeDirectSubclass authority classType
    | none => s
  s.clearBase classType

def breakFrom (items : List C) : List C → State C × List (Report C) → Except Stop (State C × List (Report C))
  | [], out => .ok out
  | item :: rest, (s,collected) => do
    let (cycle,chain) ← findCycle items s item
    if cycle then breakFrom items rest (breakAt s item,collected ++ [⟨item,chain⟩])
    else breakFrom items rest (s,collected)

def breakInheritanceCycles (items : List C) (s : State C) : Except Stop (State C × List (Report C)) := breakFrom items items (s,[])

/-! ### Sorting by depth -/

def depthRound (s : State C) : List C × ℕ × Option C → Except Stop (Loop.Flow (List C × ℕ × Option C) ℕ)
  | (_,depth,none) => .ok (.done depth)
  | (seen,depth,some current) =>
    if current ∈ seen then .ok (.done depth) else .ok (.next (seen ++ [current],depth + 1,s.baseAuthority current))

def baseDepth (items : List C) (s : State C) (classType : C) : Except Stop ℕ :=
  loop .endless (depthRound s) (items.length + 2) ([],0,s.baseAuthority classType)

def sink : ℕ → List C × List ℕ → Except Stop (List C × List ℕ)
  | 0, out => .ok out
  | at' + 1, (ordered,depths) => do
    let before ← entry depths at'
    let depth ← entry depths (at' + 1)
    if depth < before then do
      let movedItem ← entry ordered at'
      let ordered ← put ordered at' (← entry ordered (at' + 1))
      let ordered ← put ordered (at' + 1) movedItem
      let depths ← put depths at' depth
      let depths ← put depths (at' + 1) before
      sink at' (ordered,depths)
    else .ok (ordered,depths)

def sortFrom (items : List C) (s : State C) : List C → List C × List ℕ → Except Stop (List C × List ℕ)
  | [], out => .ok out
  | item :: rest, (ordered,depths) => do
    let depth ← baseDepth items s item
    sortFrom items s rest (← sink ordered.length (ordered ++ [item],depths ++ [depth]))

def sortedByBaseDepth (items : List C) (s : State C) : Except Stop (List C) := do
  let (ordered,_) ← sortFrom items s items ([],[])
  .ok ordered

/-! ### The walk up the bases -/

omit [DecidableEq C] in
theorem State.baseAuthority_eq (s : State C) (c : C) : s.baseAuthority c = (s.base c).bind authorityOf := by
  unfold State.baseAuthority
  cases s.base c <;> rfl

structure Program (C : Type) where
  items : List C
  nodup : items.Nodup
  state : State C
  closed : ∀ c ∈ items, ∀ d, state.baseAuthority c = some d → d ∈ items

variable {items : List C} {s : State C} {c d : C}

/-- What holds along a walk up the bases of `c`: it has not come back to `c`, and no class seen leads out of what was seen but the last. -/
structure Walks (items : List C) (s : State C) (c : C) (seen : List C) (current : Option C) : Prop where
  nodup : seen.Nodup
  seen_mem : ∀ d ∈ seen, d ∈ items
  current_mem : ∀ d, current = some d → d ∈ items
  way : seen = [] ∧ current = some c ∨ c ∈ seen ∧ (∀ d, current = some d → Reaches s.baseAuthority c d) ∧
    ∀ d ∈ seen, s.baseAuthority d = current ∨ ∃ e ∈ seen, s.baseAuthority d = some e ∧ e ≠ c

omit [DecidableEq C] in
theorem Walks.length_le {seen : List C} {current : Option C} (h : Walks items s c seen current) : seen.length ≤ items.length :=
  (h.nodup.subperm h.seen_mem).length_le

omit [DecidableEq C] in
theorem Walks.next (hclosed : ∀ c ∈ items, ∀ d, s.baseAuthority c = some d → d ∈ items) {seen : List C} {x : C}
    (h : Walks items s c seen (some x)) (hx : x ∉ seen) : Walks items s c (seen ++ [x]) (s.baseAuthority x) where
  nodup := List.nodup_append.2 ⟨h.nodup,List.nodup_singleton x,fun a ha b hb => by
    rw [List.mem_singleton.1 hb]
    exact fun he => hx (he ▸ ha)⟩
  seen_mem d hd := by
    rcases List.mem_append.1 hd with hd | hd
    · exact h.seen_mem d hd
    · rw [List.mem_singleton.1 hd]
      exact h.current_mem x rfl
  current_mem := hclosed x (h.current_mem x rfl)
  way := by
    right
    rcases h.way with ⟨rfl,hxc⟩ | ⟨hc,hreach,hlinks⟩
    · cases hxc
      exact ⟨by simp,fun d hd => .single hd,fun d hd => by simp_all⟩
    · refine ⟨by simp [hc],fun d hd => (hreach x rfl).tail hd,fun d hd => ?_⟩
      rcases List.mem_append.1 hd with hd | hd
      · rcases hlinks d hd with hd | ⟨e,he,hde,hne⟩
        · exact .inr ⟨x,by simp,hd,fun hxc => hx (hxc ▸ hc)⟩
        · exact .inr ⟨e,by simp [he],hde,hne⟩
      · rw [List.mem_singleton.1 hd]
        exact .inl rfl

omit [DecidableEq C] in
theorem Walks.not_onCycle {seen : List C} {current : Option C} (h : Walks items s c seen current) (hc : current ≠ some c)
    (hend : ∀ d, current = some d → d ∈ seen) : ¬ OnCycle s.baseAuthority c := by
  rcases h.way with ⟨-,hstart⟩ | ⟨hmem,-,hlinks⟩
  · exact absurd hstart hc
  · refine not_onCycle_of_closed (S := (· ∈ seen)) hmem fun d hd e hde => ?_
    rcases hlinks d hd with hcur | ⟨e',he',hde',hne⟩
    · have hec : current = some e := hcur.symm.trans hde
      exact ⟨hend e hec,fun he => hc (he ▸ hec)⟩
    · cases hde.symm.trans hde'
      exact ⟨he',hne⟩

/-- The walk up the bases of a class ends, and comes back to the class exactly when that is on a cycle. -/
theorem findCycle_ok (hclosed : ∀ c ∈ items, ∀ d, s.baseAuthority c = some d → d ∈ items) (hc : c ∈ items) :
    ∃ cycle chain, findCycle items s c = .ok (cycle,chain) ∧ (cycle = true ↔ OnCycle s.baseAuthority c) := by
  have hstart : Walks items s c [] (some c) := ⟨List.nodup_nil,by simp,by simpa using hc,.inl ⟨rfl,rfl⟩⟩
  have hround : ∀ w : List C × Option C, Walks items s c w.1 w.2 →
      (∃ r, chainRound s c w = .ok (.done r) ∧ (r.1 = true ↔ OnCycle s.baseAuthority c)) ∨
        ∃ w', chainRound s c w = .ok (.next w') ∧ Walks items s c w'.1 w'.2 ∧
          items.length + 1 - w'.1.length < items.length + 1 - w.1.length := by
    rintro ⟨seen,current⟩ h
    cases current with
    | none => exact .inl ⟨_,rfl,iff_of_false (by simp) (h.not_onCycle (by simp) (by simp))⟩
    | some x =>
      by_cases hx : x ∈ seen
      · refine .inl ⟨(decide (x = c),seen),by simp [chainRound,hx],?_⟩
        by_cases hxc : x = c
        · rcases h.way with ⟨hnil,-⟩ | ⟨-,hreach,-⟩
          · simp_all
          · exact iff_of_true (by simp [hxc]) (hxc ▸ hreach x rfl)
        · exact iff_of_false (by simp [hxc]) (h.not_onCycle (by simp [hxc]) (by simp_all))
      · have hlen := h.length_le
        refine .inr ⟨(seen ++ [x],s.baseAuthority x),by simp [chainRound,hx],h.next hclosed hx,?_⟩
        simp only [List.length_append,List.length_singleton] at hlen ⊢
        omega
  have hends : ∃ r, findCycle items s c = .ok r ∧ (r.1 = true ↔ OnCycle s.baseAuthority c) :=
    loop_ok (I := fun w => Walks items s c w.1 w.2) _ hround hstart (show items.length + 1 - ([] : List C).length < items.length + 2 by simp)
  obtain ⟨⟨cycle,chain⟩,hr,hq⟩ := hends
  exact ⟨cycle,chain,hr,hq⟩

/-! ### The cycles broken -/

/-- What holds between two rounds: the links of the classes reported are cleared and no other, no class looked at is on a cycle any more,
and of the cycles there were at first no two classes reported share one. -/
structure Broken (first : State C) (done : List C) (s : State C) (collected : List (Report C)) : Prop where
  base : ∀ c, s.base c = if c ∈ collected.map Report.item then none else first.base c
  clear : ∀ c ∈ done, ¬ OnCycle s.baseAuthority c
  onCycle : ∀ r ∈ collected, r.item ∈ done ∧ OnCycle first.baseAuthority r.item
  apart : collected.Pairwise fun r r' => ¬ Together first.baseAuthority r.item r'.item

theorem Broken.links {first : State C} {done : List C} {collected : List (Report C)} (h : Broken first done s collected) :
    s.baseAuthority = cut first.baseAuthority (collected.map Report.item) := by
  funext c
  rw [State.baseAuthority_eq,h.base,cut,State.baseAuthority_eq]
  split <;> rfl

theorem base_breakAt (s : State C) (c d : C) : (breakAt s c).base d = if d = c then none else s.base d := by
  unfold breakAt
  cases s.baseAuthority c <;> rfl

theorem Broken.report {first : State C} {done : List C} {collected : List (Report C)} (h : Broken first done s collected)
    (hc : OnCycle s.baseAuthority c) (chain : List C) :
    Broken first (done ++ [c]) (breakAt s c) (collected ++ [⟨c,chain⟩]) := by
  have hcut := hc
  rw [h.links,onCycle_cut] at hcut
  have hbase : ∀ d, (breakAt s c).base d =
      if d ∈ (collected ++ [Report.mk c chain]).map Report.item then none else first.base d := by
    intro d
    rw [base_breakAt,h.base]
    by_cases hd : d = c
    · simp [hd]
    · simp [hd]
  have hsub : ∀ a b, (breakAt s c).baseAuthority a = some b → s.baseAuthority a = some b := by
    intro a b
    rw [State.baseAuthority_eq,State.baseAuthority_eq,base_breakAt]
    split
    · simp
    · exact id
  refine ⟨hbase,fun d hd => ?_,fun r hr => ?_,?_⟩
  · rcases List.mem_append.1 hd with hd | hd
    · exact fun hcycle => h.clear d hd (Reaches.mono hsub hcycle)
    · rw [List.mem_singleton.1 hd]
      intro hcycle
      obtain ⟨e,he⟩ := hcycle.link
      simp [State.baseAuthority_eq,base_breakAt] at he
  · rcases List.mem_append.1 hr with hr | hr
    · exact ⟨List.mem_append_left _ (h.onCycle r hr).1,(h.onCycle r hr).2⟩
    · rw [List.mem_singleton.1 hr]
      exact ⟨by simp,hcut.1⟩
  · refine List.pairwise_append.2 ⟨h.apart,List.pairwise_singleton _ _,fun r hr r' hr' => ?_⟩
    rw [List.mem_singleton.1 hr']
    exact fun ht => hcut.2 r.item (List.mem_map_of_mem hr) ht.symm

theorem Broken.skip {first : State C} {done : List C} {collected : List (Report C)} (h : Broken first done s collected)
    (hc : ¬ OnCycle s.baseAuthority c) : Broken first (done ++ [c]) s collected := by
  refine ⟨h.base,fun d hd => ?_,fun r hr => ⟨List.mem_append_left _ (h.onCycle r hr).1,(h.onCycle r hr).2⟩,h.apart⟩
  rcases List.mem_append.1 hd with hd | hd
  · exact h.clear d hd
  · rw [List.mem_singleton.1 hd]
    exact hc

theorem Broken.closed {first : State C} {done : List C} {collected : List (Report C)} (h : Broken first done s collected)
    (hclosed : ∀ c ∈ items, ∀ d, first.baseAuthority c = some d → d ∈ items) :
    ∀ c ∈ items, ∀ d, s.baseAuthority c = some d → d ∈ items := by
  intro c hc d hd
  rw [h.links] at hd
  exact hclosed c hc d (cut_sub hd)

theorem breakFrom_ok {first : State C} (hclosed : ∀ c ∈ items, ∀ d, first.baseAuthority c = some d → d ∈ items) (rest : List C)
    {done : List C} {collected : List (Report C)} (h : Broken first done s collected) (hrest : ∀ c ∈ rest, c ∈ items) :
    ∃ s' collected', breakFrom items rest (s,collected) = .ok (s',collected') ∧ Broken first (done ++ rest) s' collected' := by
  induction rest generalizing done s collected with
  | nil => exact ⟨s,collected,rfl,by simpa using h⟩
  | cons c rest ih =>
    obtain ⟨cycle,chain,hfind,hcycle⟩ := findCycle_ok (h.closed hclosed) (hrest c (by simp))
    have hrest' : ∀ d ∈ rest, d ∈ items := fun d hd => hrest d (by simp [hd])
    rw [breakFrom,hfind,ok_bind]
    cases cycle with
    | true =>
      obtain ⟨s',collected',hrun,hbroken⟩ := ih (h.report (hcycle.1 rfl) chain) hrest'
      exact ⟨s',collected',hrun,by simpa using hbroken⟩
    | false =>
      obtain ⟨s',collected',hrun,hbroken⟩ := ih (h.skip fun hc => by simp at hcycle; exact hcycle hc) hrest'
      exact ⟨s',collected',hrun,by simpa using hbroken⟩

/-! ### Depths -/

/-- What holds along the walk that counts the bases of `c`: every class seen leads to where the walk stands, and what is left to count adds up. -/
structure Counts (items : List C) (s : State C) (c : C) (seen : List C) (depth : ℕ) (current : Option C) : Prop where
  nodup : seen.Nodup
  seen_mem : ∀ d ∈ seen, d ∈ items
  current_mem : ∀ d, current = some d → d ∈ items
  way : ∀ d ∈ seen, ∀ x, current = some x → Reaches s.baseAuthority d x
  height : ∀ n, Height s.baseAuthority current n → Height s.baseAuthority (s.baseAuthority c) (depth + n)

omit [DecidableEq C] in
theorem Counts.next (hclosed : ∀ c ∈ items, ∀ d, s.baseAuthority c = some d → d ∈ items) {seen : List C} {depth : ℕ} {x : C}
    (h : Counts items s c seen depth (some x)) (hx : x ∉ seen) : Counts items s c (seen ++ [x]) (depth + 1) (s.baseAuthority x) where
  nodup := List.nodup_append.2 ⟨h.nodup,List.nodup_singleton x,fun a ha b hb => by
    rw [List.mem_singleton.1 hb]
    exact fun he => hx (he ▸ ha)⟩
  seen_mem d hd := by
    rcases List.mem_append.1 hd with hd | hd
    · exact h.seen_mem d hd
    · rw [List.mem_singleton.1 hd]
      exact h.current_mem x rfl
  current_mem := hclosed x (h.current_mem x rfl)
  way d hd y hy := by
    rcases List.mem_append.1 hd with hd | hd
    · exact (h.way d hd x rfl).tail hy
    · rw [List.mem_singleton.1 hd]
      exact .single hy
  height n hn := by
    have := h.height (n + 1) hn.step
    rwa [Nat.add_right_comm,Nat.add_assoc]

theorem baseDepth_ok (hclosed : ∀ c ∈ items, ∀ d, s.baseAuthority c = some d → d ∈ items)
    (hclear : ∀ c ∈ items, ¬ OnCycle s.baseAuthority c) (hc : c ∈ items) :
    ∃ depth, baseDepth items s c = .ok depth ∧ Height s.baseAuthority (s.baseAuthority c) depth := by
  have hstart : Counts items s c [] 0 (s.baseAuthority c) :=
    ⟨List.nodup_nil,by simp,hclosed c hc,by simp,fun n hn => by simpa using hn⟩
  have hround : ∀ w : List C × ℕ × Option C, Counts items s c w.1 w.2.1 w.2.2 →
      (∃ r, depthRound s w = .ok (.done r) ∧ Height s.baseAuthority (s.baseAuthority c) r) ∨
        ∃ w', depthRound s w = .ok (.next w') ∧ Counts items s c w'.1 w'.2.1 w'.2.2 ∧
          items.length + 1 - w'.1.length < items.length + 1 - w.1.length := by
    rintro ⟨seen,depth,current⟩ h
    cases current with
    | none => exact .inl ⟨depth,rfl,h.height 0 .top⟩
    | some x =>
      by_cases hx : x ∈ seen
      · exact absurd (h.way x hx x rfl) (hclear x (h.seen_mem x hx))
      · have hlen : seen.length ≤ items.length := (h.nodup.subperm h.seen_mem).length_le
        refine .inr ⟨(seen ++ [x],depth + 1,s.baseAuthority x),by simp [depthRound,hx],h.next hclosed hx,?_⟩
        simp only [List.length_append,List.length_singleton]
        omega
  exact loop_ok (I := fun w => Counts items s c w.1 w.2.1 w.2.2) _ hround hstart
    (show items.length + 1 - ([] : List C).length < items.length + 2 by simp)

/-! ### Sorting -/

variable {depth : C → ℕ}

omit [DecidableEq C] in
theorem entry_append {T : Type} (pre post : List T) (x : T) : entry (pre ++ x :: post) pre.length = .ok x := by
  simp [entry]

omit [DecidableEq C] in
theorem put_append {T : Type} (pre post : List T) (x y : T) : put (pre ++ x :: post) pre.length y = .ok (pre ++ y :: post) := by
  simp [put]

omit [DecidableEq C] in
theorem sink_ok (depth : C → ℕ) (pre : List C) (x : C) (post : List C) :
    ∃ low high, pre = low ++ high ∧
      sink pre.length (pre ++ x :: post,(pre ++ x :: post).map depth) =
        .ok (low ++ x :: (high ++ post),(low ++ x :: (high ++ post)).map depth) ∧
      (∀ y ∈ high, depth x < depth y) ∧ ∀ y, low.getLast? = some y → depth y ≤ depth x := by
  induction pre using List.reverseRecOn generalizing post with
  | nil => exact ⟨[],[],rfl,rfl,by simp,by simp⟩
  | append_singleton pre y ih =>
    have hlen : (pre ++ [y]).length = pre.length + 1 := by simp
    have hmap : (pre.map depth ++ [depth y]).length = pre.length + 1 := by simp
    have hbefore := entry_append (pre.map depth) (depth x :: post.map depth) (depth y)
    have hdepth := entry_append (pre.map depth ++ [depth y]) (post.map depth) (depth x)
    rw [List.length_map] at hbefore
    rw [hmap] at hdepth
    by_cases hlt : depth x < depth y
    · obtain ⟨low,high,hpre,hsink,hhigh,hlow⟩ := ih (y :: post)
      refine ⟨low,high ++ [y],by rw [hpre,List.append_assoc],?_,fun z hz => ?_,hlow⟩
      · have h1 := entry_append pre (x :: post) y
        have h2 := entry_append (pre ++ [y]) post x
        have h3 := put_append pre (x :: post) y x
        have h4 := put_append (pre ++ [x]) post x y
        have h5 := put_append (pre.map depth) (depth x :: post.map depth) (depth y) (depth x)
        have h6 := put_append (pre.map depth ++ [depth x]) (post.map depth) (depth x) (depth y)
        simp only [List.length_append,List.length_singleton,List.length_map,List.append_assoc,List.cons_append,List.nil_append] at *
        rw [sink]
        simp only [List.map_append,List.map_cons] at hsink ⊢
        simp only [hbefore,hdepth,h1,h2,h3,h4,h5,h6,ok_bind,if_pos hlt,hsink]
      · rcases List.mem_append.1 hz with hz | hz
        · exact hhigh z hz
        · rw [List.mem_singleton.1 hz]
          exact hlt
    · refine ⟨pre ++ [y],[],by simp,?_,by simp,fun z hz => ?_⟩
      · rw [hlen,sink]
        simp only [List.map_append,List.map_cons,List.append_assoc,List.cons_append,List.nil_append] at hdepth hbefore ⊢
        simp only [hbefore,hdepth,ok_bind,if_neg hlt]
      · rw [List.getLast?_concat] at hz
        cases hz
        exact Nat.le_of_not_lt hlt

/-- What holds between two rounds of the sort: the items looked at are sorted, those of one depth in their order. -/
structure Sorted (depth : C → ℕ) (done ordered : List C) : Prop where
  perm : ordered.Perm done
  sorted : ordered.Pairwise fun a b => depth a ≤ depth b
  stable : ∀ k, ordered.filter (fun c => depth c = k) = done.filter (fun c => depth c = k)

omit [DecidableEq C] in
theorem le_getLast {l : List C} (h : l.Pairwise fun a b => depth a ≤ depth b) {n : ℕ} (hlast : ∀ y, l.getLast? = some y → depth y ≤ n) :
    ∀ y ∈ l, depth y ≤ n := by
  induction l using List.reverseRecOn with
  | nil => simp
  | append_singleton l z _ =>
    have hz : depth z ≤ n := hlast z (by simp)
    intro y hy
    rcases List.mem_append.1 hy with hy | hy
    · exact ((List.pairwise_append.1 h).2.2 y hy z (by simp)).trans hz
    · rw [List.mem_singleton.1 hy]
      exact hz

omit [DecidableEq C] in
theorem Sorted.insert {done low high : List C} {x : C} (h : Sorted depth done (low ++ high)) (hhigh : ∀ y ∈ high, depth x < depth y)
    (hlow : ∀ y, low.getLast? = some y → depth y ≤ depth x) : Sorted depth (done ++ [x]) (low ++ x :: high) where
  perm := by
    have hperm : (low ++ x :: high).Perm (x :: (low ++ high)) := List.perm_middle
    exact hperm.trans ((h.perm.cons x).trans (List.perm_append_singleton x done).symm)
  sorted := by
    obtain ⟨hl,hh,hlh⟩ := List.pairwise_append.1 h.sorted
    have hall := le_getLast hl hlow
    refine List.pairwise_append.2 ⟨hl,List.pairwise_cons.2 ⟨fun y hy => (hhigh y hy).le,hh⟩,fun y hy z hz => ?_⟩
    rcases List.mem_cons.1 hz with rfl | hz
    · exact hall y hy
    · exact hlh y hy z hz
  stable k := by
    have hstable := h.stable k
    rw [List.filter_append] at hstable
    rw [List.filter_append,List.filter_append,← hstable,List.filter_cons]
    by_cases hk : depth x = k
    · have hnone : high.filter (fun c => depth c = k) = [] := by
        refine List.filter_eq_nil_iff.2 fun y hy => ?_
        have := hhigh y hy
        simp only [decide_eq_true_eq]
        omega
      simp [hk,hnone]
    · simp [hk]

theorem sortFrom_ok (hdepth : ∀ c ∈ items, baseDepth items s c = .ok (depth c)) (rest : List C) {done ordered : List C}
    (h : Sorted depth done ordered) (hrest : ∀ c ∈ rest, c ∈ items) :
    ∃ ordered', sortFrom items s rest (ordered,ordered.map depth) = .ok (ordered',ordered'.map depth) ∧ Sorted depth (done ++ rest) ordered' := by
  induction rest generalizing done ordered with
  | nil => exact ⟨ordered,rfl,by simpa using h⟩
  | cons x rest ih =>
    obtain ⟨low,high,hpre,hsink,hhigh,hlow⟩ := sink_ok depth ordered x []
    rw [hpre] at h
    obtain ⟨ordered',hrun,hsorted⟩ := ih (h.insert hhigh hlow) fun c hc => hrest c (by simp [hc])
    refine ⟨ordered',?_,by simpa using hsorted⟩
    rw [sortFrom,hdepth x (hrest x (by simp)),ok_bind]
    simp only [List.map_append,List.map_cons,List.map_nil,List.append_nil] at hsink hrun
    rw [hsink,ok_bind]
    exact hrun

/-! ### Both together -/

/-- The cycles are broken exactly: one class of each is reported and none besides, and the links on no cycle stay. -/
structure BreaksExactly (P : Program C) (s : State C) (collected : List (Report C)) : Prop where
  nodup : (collected.map Report.item).Nodup
  reported : ∀ r ∈ collected, r.item ∈ P.items ∧ OnCycle P.state.baseAuthority r.item
  one : ∀ c ∈ P.items, OnCycle P.state.baseAuthority c →
    ∃! r, r ∈ collected.map Report.item ∧ Together P.state.baseAuthority c r
  kept : ∀ c, ¬ OnCycle P.state.baseAuthority c → s.base c = P.state.base c
  acyclic : ∀ c ∈ P.items, ¬ OnCycle s.baseAuthority c

/-- Every class is listed once, behind the classes it is derived from, and those of one depth in the order they had. -/
structure ListsInOrder (items : List C) (s : State C) (ordered : List C) : Prop where
  perm : ordered.Perm items
  behind : ∀ c ∈ items, ∀ d, Reaches s.baseAuthority c d → ordered.idxOf d < ordered.idxOf c
  stable : ∀ k, ordered.filter (fun c => baseDepth items s c = .ok k) = items.filter (fun c => baseDepth items s c = .ok k)

theorem breaksExactly (P : Program C) : ∃ s collected, breakInheritanceCycles P.items P.state = .ok (s,collected) ∧
    BreaksExactly P s collected ∧ ∀ c ∈ P.items, ∀ d, s.baseAuthority c = some d → d ∈ P.items := by
  have hstart : Broken P.state [] P.state [] := ⟨by simp,by simp,by simp,List.Pairwise.nil⟩
  obtain ⟨s,collected,hrun,h⟩ := breakFrom_ok P.closed P.items hstart fun c hc => hc
  rw [List.nil_append] at h
  have hreached : ∀ c ∈ P.items, OnCycle P.state.baseAuthority c →
      ∃ r ∈ collected.map Report.item, Together P.state.baseAuthority c r := by
    intro c hc hcycle
    by_contra hno
    refine h.clear c hc ?_
    rw [h.links]
    exact onCycle_cut.2 ⟨hcycle,fun r hr ht => hno ⟨r,hr,ht⟩⟩
  have hapart : (collected.map Report.item).Pairwise fun r r' => ¬ Together P.state.baseAuthority r r' := List.pairwise_map.2 h.apart
  have hcycles : ∀ r ∈ collected.map Report.item, OnCycle P.state.baseAuthority r := by
    intro r hr
    obtain ⟨report,hreport,rfl⟩ := List.mem_map.1 hr
    exact (h.onCycle report hreport).2
  refine ⟨s,collected,hrun,⟨?_,h.onCycle,fun c hc hcycle => ?_,fun c hc => ?_,h.clear⟩,h.closed P.closed⟩
  · exact hapart.imp_of_mem fun {r r'} hr _ hno heq => hno ⟨heq ▸ hcycles r hr,heq ▸ hcycles r hr⟩
  · obtain ⟨r,hr,ht⟩ := hreached c hc hcycle
    refine ⟨r,⟨hr,ht⟩,fun r' hr' => ?_⟩
    by_contra hne
    have hsymm : Std.Symm fun r r' => ¬ Together P.state.baseAuthority r r' := ⟨fun _ _ hno ht => hno ht.symm⟩
    exact hapart.forall hr'.1 hr hne (hr'.2.symm.trans ht)
  · rw [h.base,if_neg fun hmem => hc (hcycles c hmem)]

theorem listsInOrder (hclosed : ∀ c ∈ items, ∀ d, s.baseAuthority c = some d → d ∈ items)
    (hclear : ∀ c ∈ items, ¬ OnCycle s.baseAuthority c) :
    ∃ ordered, sortedByBaseDepth items s = .ok ordered ∧ ListsInOrder items s ordered := by
  have hall : ∀ c, ∃ depth, c ∈ items → baseDepth items s c = .ok depth ∧ Height s.baseAuthority (s.baseAuthority c) depth := by
    intro c
    by_cases hc : c ∈ items
    · obtain ⟨depth,hdepth⟩ := baseDepth_ok hclosed hclear hc
      exact ⟨depth,fun _ => hdepth⟩
    · exact ⟨0,fun h => absurd h hc⟩
  choose depth hdepth using hall
  have hnone : Sorted depth [] [] := ⟨List.Perm.refl _,List.Pairwise.nil,fun _ => rfl⟩
  obtain ⟨ordered,hrun,h⟩ := sortFrom_ok (fun c hc => (hdepth c hc).1) items hnone fun c hc => hc
  rw [List.nil_append] at h
  have hdeeper : ∀ c ∈ items, ∀ d, Reaches s.baseAuthority c d → d ∈ items ∧ depth d < depth c := by
    have hlink : ∀ c ∈ items, ∀ d, s.baseAuthority c = some d → d ∈ items ∧ depth d < depth c := by
      intro c hc d hd
      have hmem := hclosed c hc d hd
      have hheight := (hdepth c hc).2
      rw [hd] at hheight
      exact ⟨hmem,by rw [hheight.unique (hdepth d hmem).2.step]; omega⟩
    intro c hc d hr
    induction hr with
    | single hd => exact hlink c hc _ hd
    | tail _ hd ih =>
      obtain ⟨hmem,hlt⟩ := hlink _ ih.1 _ hd
      exact ⟨hmem,hlt.trans ih.2⟩
  refine ⟨ordered,by simp [sortedByBaseDepth,show sortFrom items s items ([],[]) = _ from hrun],h.perm,fun c hc d hr => ?_,fun k => ?_⟩
  · obtain ⟨hmem,hlt⟩ := hdeeper c hc d hr
    have hci : ordered.idxOf c < ordered.length := List.idxOf_lt_length_iff.2 (h.perm.mem_iff.2 hc)
    have hdi : ordered.idxOf d < ordered.length := List.idxOf_lt_length_iff.2 (h.perm.mem_iff.2 hmem)
    by_contra hle
    rcases Nat.lt_or_eq_of_le (Nat.le_of_not_lt hle) with hbefore | hsame
    · have := List.pairwise_iff_getElem.1 h.sorted _ _ hci hdi hbefore
      rw [List.getElem_idxOf,List.getElem_idxOf] at this
      omega
    · have heq := List.getElem_idxOf hci
      simp only [hsame,List.getElem_idxOf] at heq
      rw [heq] at hlt
      exact lt_irrefl _ hlt
  · have hsame : ∀ c ∈ items, decide (baseDepth items s c = .ok k) = decide (depth c = k) := by
      intro c hc
      rw [(hdepth c hc).1]
      simp
    rw [List.filter_congr hsame,List.filter_congr fun c hc => hsame c (h.perm.mem_iff.1 hc)]
    exact h.stable k

/-- The cycles of a program are broken exactly, and its classes then listed in an order to lay them out in. -/
theorem layoutProgram_exact (P : Program C) :
    ∃ s collected ordered, breakInheritanceCycles P.items P.state = .ok (s,collected) ∧ BreaksExactly P s collected ∧
      sortedByBaseDepth P.items s = .ok ordered ∧ ListsInOrder P.items s ordered := by
  obtain ⟨s,collected,hrun,hbreaks,hclosed⟩ := breaksExactly P
  obtain ⟨ordered,hsort,hlists⟩ := listsInOrder hclosed hbreaks.acyclic
  exact ⟨s,collected,ordered,hrun,hbreaks,hsort,hlists⟩

end Ens.Layout
