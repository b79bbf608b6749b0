import Ens.Reach.Least

/-! # What the walk keeps

A run of the program reads only slots the walk kept. Over the bodies an inliner rewrote, what is retained holds
everything the retained bodies, the roots and the kept slots name.
-/
set_option linter.all false
namespace Ens.Reach
variable {T : Type}

local instance lawfulRetained : LawfulBEq Symbol := inferInstance

/-! ### Rewritten bodies -/

section
variable (decided : ReachedProgram T) (bodies : Symbol → Option (Body T))

structure Retained where
  symbols : List Symbol := []
  pending : List Symbol := []

def retain (r : Retained) (symbol : Symbol) : Retained :=
  if symbol ∉ decided.symbols ∨ (bodies symbol).isNone ∨ symbol ∈ r.symbols then r
  else { symbols := r.symbols ++ [symbol], pending := r.pending ++ [symbol] }

def retainAll : ℕ → Retained → Retained
  | 0, r => r
  | k + 1, r => match r.pending.getLast? with
    | none => r
    | some s =>
      let r := { r with pending := r.pending.dropLast }
      match bodies s with
      | none => retainAll k r
      | some body => retainAll k (body.named.foldl (retain decided bodies) r)

def retainFrom : ReachedProgram T :=
  let r := retainAll decided bodies decided.symbols.length
    ((decided.roots ++ decided.keptImplementations).foldl (retain decided bodies) {})
  { decided with symbols := r.symbols, order := decided.order.filter fun s => s ∈ r.symbols }

end

variable {decided : ReachedProgram T} {bodies : Symbol → Option (Body T)} {r r' : Retained} {s : Symbol} {l : List Symbol} {k : ℕ}

/-- A symbol that can be retained is. -/
def Keeps (decided : ReachedProgram T) (bodies : Symbol → Option (Body T)) (r : Retained) (s : Symbol) : Prop :=
  s ∈ decided.symbols → (bodies s).isSome → s ∈ r.symbols

structure RetainInv (decided : ReachedProgram T) (bodies : Symbol → Option (Body T)) (r : Retained) : Prop where
  nodup : r.symbols.Nodup
  reached : ∀ s ∈ r.symbols, s ∈ decided.symbols
  scanned : ∀ s ∈ r.symbols, s ∈ r.pending ∨ ∀ body, bodies s = some body → ∀ n ∈ body.named, Keeps decided bodies r n

variable (decided bodies l r) in
theorem retain_all : (∃ new, (l.foldl (retain decided bodies) r).symbols = r.symbols ++ new ∧
      (l.foldl (retain decided bodies) r).pending = r.pending ++ new) ∧
    (∀ s ∈ l, Keeps decided bodies (l.foldl (retain decided bodies) r) s) ∧
    (r.symbols.Nodup → (∀ s ∈ r.symbols, s ∈ decided.symbols) → (l.foldl (retain decided bodies) r).symbols.Nodup ∧
      ∀ s ∈ (l.foldl (retain decided bodies) r).symbols, s ∈ decided.symbols) := by
  induction l generalizing r with
  | nil => exact ⟨⟨[],by simp⟩,nofun,fun hn hr => ⟨hn,hr⟩⟩
  | cons x l ih =>
    rw [List.foldl_cons]
    obtain ⟨⟨new,hs,hp⟩,hall,hinv⟩ := ih (retain decided bodies r x)
    have hone : (∃ new, (retain decided bodies r x).symbols = r.symbols ++ new ∧ (retain decided bodies r x).pending = r.pending ++ new) ∧
        Keeps decided bodies (retain decided bodies r x) x ∧ (r.symbols.Nodup → (∀ s ∈ r.symbols, s ∈ decided.symbols) →
          (retain decided bodies r x).symbols.Nodup ∧ ∀ s ∈ (retain decided bodies r x).symbols, s ∈ decided.symbols) := by
      unfold retain Keeps
      split
      · rename_i h
        refine ⟨⟨[],by simp⟩,fun hx hb => ?_,fun hn hr => ⟨hn,hr⟩⟩
        rcases h with h | h | h
        · exact absurd hx h
        · rw [Option.isNone_iff_eq_none.mp h] at hb
          cases hb
        · exact h
      · rename_i h
        obtain ⟨hx,-,hnew⟩ := by simpa only [not_or,not_not] using h
        refine ⟨⟨[x],rfl,rfl⟩,fun _ _ => List.mem_append_right _ (List.mem_singleton_self x),fun hn hr => ⟨?_,fun s hs => ?_⟩⟩
        · rw [List.nodup_append]
          refine ⟨hn,List.pairwise_singleton _ x,fun a ha b hb => ?_⟩
          rintro rfl
          exact hnew (List.mem_singleton.mp hb ▸ ha)
        · rcases List.mem_append.mp hs with hs | hs
          · exact hr s hs
          · rwa [List.mem_singleton.mp hs]
    obtain ⟨⟨new',hs',hp'⟩,hx,hinv'⟩ := hone
    refine ⟨⟨new' ++ new,by rw [hs,hs',List.append_assoc],by rw [hp,hp',List.append_assoc]⟩,fun s hmem => ?_,fun hn hr => ?_⟩
    · rcases List.mem_cons.mp hmem with rfl | hmem
      · intro hd hb
        rw [hs]
        exact List.mem_append_left _ (hx hd hb)
      · exact hall s hmem
    · obtain ⟨hn',hr'⟩ := hinv' hn hr
      exact hinv hn' hr'

theorem Keeps.mono (h : Keeps decided bodies r s) (hg : ∃ new, r'.symbols = r.symbols ++ new) : Keeps decided bodies r' s := by
  obtain ⟨new,hs⟩ := hg
  intro hd hb
  rw [hs]
  exact List.mem_append_left _ (h hd hb)

theorem retainAll_spec (h : RetainInv decided bodies r) (hk : decided.symbols.length - r.symbols.length + r.pending.length ≤ k) :
    (∀ s ∈ (retainAll decided bodies k r).symbols, ∀ body, bodies s = some body →
      ∀ n ∈ body.named, Keeps decided bodies (retainAll decided bodies k r) n) ∧
    (∀ s, Keeps decided bodies r s → Keeps decided bodies (retainAll decided bodies k r) s) ∧
    ∀ s ∈ (retainAll decided bodies k r).symbols, s ∈ decided.symbols := by
  induction k generalizing r with
  | zero =>
    refine ⟨fun s hs body hb n hn => ?_,fun s hs => hs,h.reached⟩
    rcases h.scanned s hs with hq | hscan
    · have : r.pending = [] := List.eq_nil_of_length_eq_zero (by omega)
      rw [this] at hq
      cases hq
    · exact hscan body hb n hn
  | succ k ih =>
    rw [retainAll]
    split
    · rename_i hnone
      refine ⟨fun s hs body hb n hn => ?_,fun s hs => hs,h.reached⟩
      rcases h.scanned s hs with hq | hscan
      · rw [List.getLast?_eq_none_iff.mp hnone] at hq
        cases hq
      · exact hscan body hb n hn
    · rename_i s hs
      have hsplit : r.pending = r.pending.dropLast ++ [s] := (List.dropLast_append_getLast? s hs).symm
      have hlen : r.pending.length = r.pending.dropLast.length + 1 := by
        rw [hsplit]
        simp
      dsimp only
      split
      · rename_i hb
        refine ih (r := { r with pending := r.pending.dropLast }) ⟨h.nodup,h.reached,fun x hx => ?_⟩ (by dsimp only; omega)
        rcases h.scanned x hx with hq | hscan
        · rw [hsplit] at hq
          rcases List.mem_append.mp hq with hq | hq
          · exact .inl hq
          · refine .inr fun body hbody => ?_
            rw [List.mem_singleton.mp hq,hb] at hbody
            cases hbody
        · exact .inr hscan
      · rename_i body hb
        obtain ⟨⟨new,hsym,hpend⟩,hall,hinv⟩ := retain_all decided bodies
          { r with pending := r.pending.dropLast } body.named
        obtain ⟨hnodup,hreached⟩ := hinv h.nodup h.reached
        have hle := (List.subperm_of_subset hnodup hreached).length_le
        rw [hsym,List.length_append] at hle
        have hnext := ih (r := body.named.foldl (retain decided bodies) { r with pending := r.pending.dropLast })
          ⟨hnodup,hreached,fun x hx => ?_⟩ (by
            rw [hsym,hpend,List.length_append,List.length_append]
            dsimp only at hle ⊢
            omega)
        · exact ⟨hnext.1,fun x hx => hnext.2.1 x (hx.mono ⟨new,hsym⟩),hnext.2.2⟩
        · rw [hsym] at hx
          rw [hpend]
          rcases List.mem_append.mp hx with hx | hx
          · rcases h.scanned x hx with hq | hscan
            · rw [hsplit] at hq
              rcases List.mem_append.mp hq with hq | hq
              · exact .inl (List.mem_append_left _ hq)
              · refine .inr fun body' hbody => ?_
                rw [List.mem_singleton.mp hq,hb] at hbody
                cases hbody
                exact hall
            · exact .inr fun body' hbody n hn => (hscan body' hbody n hn).mono ⟨new,hsym⟩
          · exact .inl (List.mem_append_right _ hx)

variable (decided bodies) in
theorem retainFrom_spec : (∀ s ∈ decided.roots ++ decided.keptImplementations, s ∈ decided.symbols → (bodies s).isSome →
      s ∈ (retainFrom decided bodies).symbols) ∧
    (∀ s ∈ (retainFrom decided bodies).symbols, ∀ body, bodies s = some body → ∀ n ∈ body.named, n ∈ decided.symbols →
      (bodies n).isSome → n ∈ (retainFrom decided bodies).symbols) ∧
    ∀ s ∈ (retainFrom decided bodies).symbols, s ∈ decided.symbols := by
  obtain ⟨⟨new,hsym,hpend⟩,hall,hinv⟩ := retain_all decided bodies {}
    (decided.roots ++ decided.keptImplementations)
  obtain ⟨hnodup,hreached⟩ := hinv List.nodup_nil nofun
  have hle := (List.subperm_of_subset hnodup hreached).length_le
  obtain ⟨hclosed,hkeeps,hall'⟩ := retainAll_spec (k := decided.symbols.length) ⟨hnodup,hreached,fun s hs => .inl (by rw [hpend]; rwa [hsym] at hs)⟩
    (by rw [hpend,hsym] at *; simp only [List.nil_append] at *; omega)
  exact ⟨fun s hs => hkeeps s (hall s hs),hclosed,hall'⟩

end Ens.Reach

/-! ## Reachability

The walk marks the least sets closed under its rules in any order, keeps every slot a run reads, and what is
retained over rewritten bodies leaves out nothing that is still named.
-/
namespace Ens.Reach
variable {T : Type} [DecidableEq T] {src : Source T} {libraryTypes : Option (List T)} {started : List Symbol} {w : Walk T}

/-! ### Runs of the program -/

structure Machine (T : Type) where
  entered : List Symbol := []
  objects : List T := []

/-- A body entered names this. -/
def Machine.Executes (src : Source T) (m : Machine T) (x : Mention T) : Prop :=
  ∃ s ∈ m.entered, ∃ body, src.bodyOf s = some body ∧ x ∈ body.mentions

/-- A call dispatched in a body entered reads a slot of an object the run allocated. -/
def Machine.Reads (src : Source T) (m : Machine T) (t : T) (d : Dispatch T) (key f : Symbol) : Prop :=
  m.Executes src (.dispatch d) ∧ t ∈ m.objects ∧ Holds src t d key f

/-- A run starts at a root. A symbol that a body entered names may be entered at any time, whether it is called or its
address taken, and so may what a slot that is read holds. -/
inductive Moves (src : Source T) (started : List Symbol) : Machine T → Machine T → Prop
  | start {m : Machine T} {s : Symbol} (hs : s ∈ started) (hb : (src.bodyOf s).isSome) :
    Moves src started m { m with entered := s :: m.entered }
  | enter {m : Machine T} {s : Symbol} (hs : m.Executes src (.symbol s)) (hb : (src.bodyOf s).isSome) :
    Moves src started m { m with entered := s :: m.entered }
  | allocate {m : Machine T} {t : T} (ht : m.Executes src (.allocation t)) : Moves src started m { m with objects := t :: m.objects }
  | dispatch {m : Machine T} {t : T} {d : Dispatch T} {key f : Symbol} (hr : m.Reads src t d key f) (hb : (src.bodyOf f).isSome) :
    Moves src started m { m with entered := f :: m.entered }

/-- What a run has come to. -/
def Runs (src : Source T) (started : List Symbol) (m : Machine T) : Prop := Relation.ReflTransGen (Moves src started) {} m

structure Machine.Marked (src : Source T) (M : Set (Mark T)) (m : Machine T) : Prop where
  entered : ∀ s ∈ m.entered, Mark.body s ∈ M
  objects : ∀ t ∈ m.objects, Mentioned src M (.allocation t)

omit [DecidableEq T] in
theorem Machine.Marked.mentioned {M : Set (Mark T)} {m : Machine T} {x : Mention T} (h : m.Marked src M) (hx : m.Executes src x) :
    Mentioned src M x := by
  obtain ⟨s,hs,body,hb,hx⟩ := hx
  exact ⟨s,body,h.entered s hs,hb,hx⟩

theorem runs_marked {M : Set (Mark T)} {m : Machine T} (hM : Closed src M libraryTypes started) (h : Runs src started m) :
    m.Marked src M := by
  induction h with
  | refl => exact ⟨nofun,nofun⟩
  | tail _ hmove ih =>
    cases hmove with
    | start hs hb => exact ⟨List.forall_mem_cons.mpr ⟨hM.root _ hs hb,ih.entered⟩,ih.objects⟩
    | enter hs hb => exact ⟨List.forall_mem_cons.mpr ⟨hM.symbol _ (ih.mentioned hs) hb,ih.entered⟩,ih.objects⟩
    | allocate ht => exact ⟨ih.entered,List.forall_mem_cons.mpr ⟨ih.mentioned ht,ih.objects⟩⟩
    | dispatch hr hb =>
      obtain ⟨hd,ht,hh⟩ := hr
      exact ⟨List.forall_mem_cons.mpr ⟨hM.implementation _ _ _ _ (ih.objects _ ht) (ih.mentioned hd) hh hb,ih.entered⟩,ih.objects⟩

/-! ### Keys of slots -/

theorem cut_bar {a b x y : Symbol} (ha : '|' ∉ a) (hb : '|' ∉ b) (h : a ++ '|' :: x = b ++ '|' :: y) : a = b ∧ x = y := by
  induction a generalizing b with
  | nil =>
    cases b with
    | nil => exact ⟨rfl,(List.cons.inj h).2⟩
    | cons c b => exact absurd (List.mem_cons.mpr (.inl (List.cons.inj h).1)) hb
  | cons c a ih =>
    cases b with
    | nil => exact absurd (List.mem_cons.mpr (.inl (List.cons.inj h).1.symm)) ha
    | cons e b =>
      obtain ⟨rfl,htail⟩ := List.cons.inj h
      obtain ⟨rfl,rfl⟩ := ih (fun hm => ha (List.mem_cons_of_mem c hm)) (fun hm => hb (List.mem_cons_of_mem c hm)) htail
      exact ⟨rfl,rfl⟩

theorem decimal_inj {m n : ℕ} (h : Nat.toDigits 10 m = Nat.toDigits 10 n) : m = n := by
  rw [← Nat.ofDigitChars_ten_toDigits (n := m),h,Nat.ofDigitChars_ten_toDigits]

theorem bar_not_digit {n : ℕ} : '|' ∉ Nat.toDigits 10 n := fun h =>
  absurd (Nat.isDigit_of_mem_toDigits (by decide) (by decide) h) (by decide)

theorem number_inj {a b : SlotKind} (h : a.number = b.number) : a = b := by
  cases a <;> cases b <;> first | rfl | cases h

section
variable (hsymbol : Function.Injective src.descriptorSymbol) (hbar : ∀ t, '|' ∉ src.descriptorSymbol t)
variable {t u : T} {p q : Plan T} {kind kind' : SlotKind} {conformed conformed' : Option T} {index index' : ℕ} {f f' : Symbol}
include hsymbol hbar

omit [DecidableEq T] in
theorem slotKey_inj (hp : src.planOf t = some p) (hq : src.planOf u = some q)
    (h : slotKey src p kind conformed index = slotKey src q kind' conformed' index') :
    t = u ∧ kind = kind' ∧ (conformed.map src.descriptorSymbol).getD [] = (conformed'.map src.descriptorSymbol).getD [] ∧
      index = index' := by
  have hname (c : Option T) : '|' ∉ (c.map src.descriptorSymbol).getD [] := by
    cases c with
    | none => exact List.not_mem_nil
    | some c => exact hbar c
  rw [slotKey,slotKey,src.plan_symbol t p hp,src.plan_symbol u q hq] at h
  obtain ⟨htype,h⟩ := cut_bar (hbar t) (hbar u) h
  obtain ⟨hkind,h⟩ := cut_bar bar_not_digit bar_not_digit h
  obtain ⟨hinterface,hindex⟩ := cut_bar (hname conformed) (hname conformed') h
  exact ⟨hsymbol htype,number_inj (decimal_inj hkind),hinterface,decimal_inj hindex⟩

theorem slotOf_key (hp : src.planOf t = some p) (hq : src.planOf u = some q) (hf : slotOf p kind conformed index = some f)
    (hf' : slotOf q kind' conformed' index' = some f')
    (h : slotKey src p kind conformed index = slotKey src q kind' conformed' index') : f = f' := by
  obtain ⟨rfl,rfl,hinterface,rfl⟩ := slotKey_inj hsymbol hbar hp hq h
  cases hp.symm.trans hq
  have hnone (i : ℕ) : slotOf p .interface none i = none := by
    have : (p.conformances.find? fun c => (none : Option T) = some c.interfaceType) = none :=
      List.find?_eq_none.mpr fun c _ => by simp
    simp only [slotOf,this]
  cases kind with
  | interface =>
    cases conformed with
    | none => rw [hnone] at hf; cases hf
    | some c =>
      cases conformed' with
      | none => rw [hnone] at hf'; cases hf'
      | some c' =>
        obtain rfl : c = c' := hsymbol hinterface
        exact Option.some.inj (hf.symm.trans hf')
  | method => exact Option.some.inj (hf.symm.trans hf')
  | hash => exact Option.some.inj (hf.symm.trans hf')
  | equals => exact Option.some.inj (hf.symm.trans hf')
  | toString => exact Option.some.inj (hf.symm.trans hf')

end

theorem mem_implementations {p : Plan T} {kind : SlotKind} {conformed : Option T} {index : ℕ} {f : Symbol}
    (hf : slotOf p kind conformed index = some f) : f ∈ p.implementations := by
  have hmem {l : List (Option Symbol)} {i : ℕ} (h : (l[i]?).join = some f) : some f ∈ l :=
    List.mem_of_getElem? (Option.join_eq_some_iff.mp h)
  rw [Plan.implementations,List.mem_filterMap]
  refine ⟨some f,?_,rfl⟩
  simp only [List.mem_append,List.mem_flatMap]
  cases kind with
  | method => exact .inl (.inl (hmem hf))
  | interface =>
    rw [slotOf] at hf
    split at hf
    · rename_i c hc
      exact .inl (.inr ⟨c,List.mem_of_find?_eq_some hc,hmem hf⟩)
    · cases hf
  | hash => exact .inr (by simp [show p.hashSlot = some f from hf])
  | equals => exact .inr (by simp [show p.equalsSlot = some f from hf])
  | toString => exact .inr (by simp [show p.toStringSlot = some f from hf])

/-! ### All of it -/

/-- Rewritten bodies stand for bodies of the program, and name no symbol with a body that the walk did not reach. -/
structure Rewrites (src : Source T) (decided : ReachedProgram T) (bodies : Symbol → Option (Body T)) : Prop where
  defined : ∀ s, (bodies s).isSome → (src.bodyOf s).isSome
  named : ∀ s ∈ decided.symbols, ∀ body, bodies s = some body → ∀ n ∈ body.named, (bodies n).isSome → n ∈ decided.symbols

/-- Everything the bodies kept, the roots and the slots kept name is kept. A slot is known by the symbols of its
descriptor and its interface, so for slots these tell types apart. -/
structure KeepsNamed (src : Source T) (decided : ReachedProgram T) (bodies : Symbol → Option (Body T)) (kept : ReachedProgram T) :
    Prop where
  named : ∀ s ∈ kept.symbols, ∀ body, bodies s = some body → ∀ n ∈ body.named, (bodies n).isSome → n ∈ kept.symbols
  roots : ∀ s ∈ decided.roots, (bodies s).isSome → s ∈ kept.symbols
  implementations : ∀ f ∈ decided.keptImplementations, (bodies f).isSome → f ∈ kept.symbols
  slots : Function.Injective src.descriptorSymbol → (∀ t, '|' ∉ src.descriptorSymbol t) → ∀ t ∈ decided.descriptors, ∀ p,
    src.planOf t = some p → ∀ kind conformed index f, decided.keepsSlot src p kind conformed index → slotOf p kind conformed index = some f →
      (bodies f).isSome → f ∈ kept.symbols

theorem Walks.keepsSlot {m : Machine T} {t : T} {d : Dispatch T} {key f : Symbol} {p : Plan T} (h : Walks src libraryTypes started w)
    (hp : w.pending = []) (hm : Runs src started m) (hr : m.Reads src t d key f) (hplan : src.planOf t = some p) :
    (w.found libraryTypes.isSome started).keepsSlot src p d.kind d.conformed d.index = true := by
  have hclosed := h.inv.closed hp
  have hmarked := runs_marked hclosed hm
  obtain ⟨hd,ht,hh⟩ := hr
  have hslot := hclosed.slot t d key f (hmarked.objects t ht) (hmarked.mentioned hd) hh
  obtain ⟨q,hq,-,-,rfl⟩ := hh
  cases hplan.symm.trans hq
  rw [ReachedProgram.keepsSlot,Bool.or_eq_true]
  exact .inr (decide_eq_true hslot)

theorem Walks.retains {bodies : Symbol → Option (Body T)} (h : Walks src libraryTypes started w)
    (hb : Rewrites src (w.found libraryTypes.isSome started) bodies) :
    KeepsNamed src (w.found libraryTypes.isSome started) bodies (retainFrom (w.found libraryTypes.isSome started) bodies) := by
  obtain ⟨hfrom,hclosed,hreached⟩ := retainFrom_spec (w.found libraryTypes.isSome started) bodies
  have himpl : ∀ f ∈ w.keptImplementations, (bodies f).isSome →
      f ∈ (retainFrom (w.found libraryTypes.isSome started) bodies).symbols := fun f hf hbody =>
    hfrom f (List.mem_append_right _ hf) (h.inv.implemented f hf (hb.defined f hbody)) hbody
  refine ⟨fun s hs body hbody n hn hsome => ?_,fun s hs hbody => ?_,himpl,?_⟩
  · exact hclosed s hs body hbody n hn (hb.named s (hreached s hs) body hbody n hn hsome) hsome
  · exact hfrom s (List.mem_append_left _ hs) (h.inv.roots s hs (hb.defined s hbody)) hbody
  · intro hsymbol hbar t ht p hp kind conformed index f hkept hf hbody
    refine himpl f ?_ hbody
    rw [ReachedProgram.keepsSlot,Bool.or_eq_true] at hkept
    rcases hkept with hlib | hkey
    · exact ((h.inv.named t ht p hp).2.2 hlib f (mem_implementations hf)).1
    · obtain ⟨u,-,d,-,f',⟨q,hq,-,hf',hk⟩,hmem⟩ := h.inv.kept _ (of_decide_eq_true hkey)
      rwa [slotOf_key hsymbol hbar hp hq hf hf' hk]

/-- Reachability: whatever order the worklist is served in, serving ends, and what is then marked is the least set
closed under the rules. Every slot a run reads is kept, and what is retained keeps what is still named. -/
theorem walk_reachable (src : Source T) (libraryTypes : Option (List T)) (started : List Symbol) :
    (∀ w, Walks src libraryTypes started w → Acc (fun v w => Serves src libraryTypes.isSome w v) w ∧
      (w.pending = [] → IsLeast {M | Closed src M libraryTypes started} w.marks)) ∧
    (∃ w, Walks src libraryTypes started w ∧ w.pending = [] ∧
      walkFrom src started libraryTypes = w.found libraryTypes.isSome started) ∧
    (∀ m, Runs src started m → ∀ t d key f p, m.Reads src t d key f → src.planOf t = some p →
      (walkFrom src started libraryTypes).keepsSlot src p d.kind d.conformed d.index = true) ∧
    ∀ bodies, Rewrites src (walkFrom src started libraryTypes) bodies →
      KeepsNamed src (walkFrom src started libraryTypes) bodies (retainFrom (walkFrom src started libraryTypes) bodies) := by
  obtain ⟨w,hw,hp,hfound⟩ := walkFrom_walks src libraryTypes started
  refine ⟨fun v hv => ⟨hv.ends,hv.least⟩,⟨w,hw,hp,hfound⟩,?_,?_⟩
  · intro m hm t d key f p hr hplan
    rw [hfound]
    exact hw.keepsSlot hp hm hr hplan
  · intro bodies hb
    rw [hfound] at hb ⊢
    exact hw.retains hb

end Ens.Reach
