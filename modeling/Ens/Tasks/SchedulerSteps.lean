import Ens.Tasks.Scheduler
import Mathlib.Data.Fintype.EquivFin

/-! # What the steps of the pool do

Most operations of a worker change nothing but where it is. The others are listed one by one. A
worker never finds every processor held, since there are as many processors as workers.
-/
set_option linter.all false
namespace Ens.Tasks.Scheduler
variable {n : ℕ} {U : Type} [DecidableEq U]

/-! ### Places of a worker -/

namespace At

@[simp] def window : At n → Bool
  | .stops | .stopEnds | .looks .late _ | .unregisters | .sleeps | .sleepsFound => true
  | _ => false

@[simp] def past : At n → Bool
  | .looks .late (.steal _) | .sleeps => true
  | _ => false

@[simp] def dry : At n → Bool
  | .looks .late .global | .looks .late (.steal _) | .sleeps => true
  | _ => false

@[simp] def ends : At n → Bool
  | .stopEnds | .foundEnds => true
  | _ => false

@[simp] def stopped : At n → Bool
  | .looks .late _ | .unregisters | .sleeps | .sleepsFound => true
  | _ => false

@[simp] def bare : At n → Bool
  | .drops | .stopsBare | .stopEndsBare | .registersBare => true
  | _ => false

@[simp] def unheld : At n → Bool
  | .top | .acquires _ | .takes _ => true
  | _ => false

@[simp] def asleep : At n → Bool
  | .sleeps | .sleepsFound => true
  | _ => false

end At

def Waking.counted : Option (Waking n) → Bool
  | none | some .starts => false
  | some _ => true

/-! ### Processors -/

structure Processors (s : State n U) : Prop where
  owner : ∀ p w, s.owner p = some w ↔ s.processor w = some p ∨ s.place w = .takes p
  takes : ∀ w p, s.place w = .takes p → s.processor w = none
  acquires : ∀ w i, s.place w = .acquires i → s.processor w = none ∧ ∀ j : Fin (n + 1), j < i → s.owner j ≠ none
  held : ∀ w, (s.place w).unheld = false → ∃ p, s.processor w = some p
  bare : ∀ w, (s.place w).bare = false

variable {s t : State n U} {a : Action n U} {w v : Fin (n + 1)} {p q : Fin (n + 1)} {x y : At n}

omit [DecidableEq U] in
theorem processors_init : Processors (init : State n U) := by
  constructor <;> simp [init,At.unheld,At.bare]

omit [DecidableEq U] in
theorem Processors.injective (h : Processors s) (hw : s.owner p = some w) (hv : s.owner q = some w) : p = q := by
  rcases (h.owner p w).mp hw with hp | hp <;> rcases (h.owner q w).mp hv with hq | hq
  · exact Option.some.inj (hp.symm.trans hq)
  · rw [h.takes w q hq] at hp; cases hp
  · rw [h.takes w p hp] at hq; cases hq
  · exact At.takes.inj (hp.symm.trans hq)

omit [DecidableEq U] in
theorem Processors.free (h : Processors s) {i : ℕ} (hw : s.place w = .acquires i) : i < n + 1 := by
  by_contra hi
  obtain ⟨hnone,hall⟩ := h.acquires w i hw
  -- Every processor has an owner other than this worker, and no two have the same.
  have hsome (p : Fin (n + 1)) : ∃ v, s.owner p = some v :=
    Option.ne_none_iff_exists'.mp (hall p (by omega))
  choose f hf using hsome
  have hinj : Function.Injective f := fun p q hpq => h.injective (hf p) (hpq ▸ hf q)
  obtain ⟨p,hp⟩ := (Finite.injective_iff_surjective.mp hinj) w
  rcases (h.owner p w).mp (hp ▸ hf p) with hp | hp
  · rw [hnone] at hp; cases hp
  · rw [hw] at hp; cases hp

/-! ### Steps -/

structure Silent (s : State n U) (w : Fin (n + 1)) (x : At n) : Prop where
  window : x.window = (s.place w).window
  ends : x.ends = false ∧ (s.place w).ends = false
  waking : (s.place w).waking = none ∧ (x.waking = none ∨ x.waking = some .starts)
  past : x.past = true → (s.place w).past = true ∨ s.global = 0
  dry : x.dry = true → (s.place w).dry = true ∨ ∀ p, s.processor w = some p → s.queue p = 0
  stopped : x.stopped = true → (s.place w).stopped = true ∨ s.flag w = false
  sleepsFound : x = .sleepsFound → w ∉ s.idle
  held : x.unheld = false → ∃ p, s.processor w = some p
  acquires : ∀ i, x = .acquires i → s.processor w = none ∧ ∀ j : Fin (n + 1), j < i → s.owner j ≠ none
  takes : ∀ p, s.place w ≠ .takes p ∧ x ≠ .takes p
  bare : x.bare = false

inductive Steps (s : State n U) : Action n U → State n U → Prop
  | silent {a : Action n U} {w : Fin (n + 1)} {x : At n} : Silent s w x → Steps s a (s.goto w x)
  | acquires {w : Fin (n + 1)} {i : ℕ} (h : i < n + 1) : s.place w = .acquires i → s.owner ⟨i,h⟩ = none →
      Steps s (.work w) ({ s with owner := Function.update s.owner ⟨i,h⟩ (some w) }.goto w (.takes ⟨i,h⟩))
  | takes {w p : Fin (n + 1)} : s.place w = .takes p → Steps s (.work w) ((s.hold w (some p)).goto w (.looks .first .own))
  | popOwn {w p : Fin (n + 1)} {l : Look} : s.place w = .looks l .own → s.processor w = some p →
      Steps s (.work w) ((s.take p 1).goto w l.found)
  | popGlobal {w : Fin (n + 1)} {l : Look} : s.place w = .looks l .global →
      Steps s (.work w) ({ s with global := s.global - 1 }.goto w l.found)
  | robs {w v : Fin (n + 1)} {l : Look} {k m m' : ℕ} : s.place w = .looks l (.steal k) → Steps s (.work w) ((s.take v m).goto w (.looks l (.moving m')))
  | moves {w p : Fin (n + 1)} {l : Look} {k : ℕ} : s.place w = .looks l (.moving (k + 1)) → s.processor w = some p →
      Steps s (.work w) ((s.push p).goto w (.looks l (.moving k)))
  | searches {w : Fin (n + 1)} : s.place w = .starts → s.flag w = false → s.searching = 0 →
      Steps s (.work w) (({ s with searching := 1 }.setFlag w true).goto w (.spinsOwn 0))
  | registers {w : Fin (n + 1)} : s.place w = .registers → Steps s (.work w) ({ s with idle := s.idle ++ [w] }.goto w .stops)
  | stops {w : Fin (n + 1)} {x : At n} : (s.place w = .stops ∧ x = .stopEnds) ∨ (s.place w = .found ∧ x = .foundEnds) → s.flag w = true →
      Steps s (.work w) ((s.setFlag w false).goto w x)
  | ends {w : Fin (n + 1)} {x : At n} : (s.place w = .stopEnds ∧ x = .looks .late .own) ∨ (s.place w = .foundEnds ∧ (x = .readsOwn ∨ x = .runs)) →
      Steps s (.work w) ({ s with searching := s.searching - 1 }.goto w x)
  | unregisters {w : Fin (n + 1)} : s.place w = .unregisters → w ∈ s.idle →
      Steps s (.work w) ({ s with idle := s.idle.erase w }.goto w .found)
  | wakesUp {w : Fin (n + 1)} {x : At n} : (s.place w = .sleeps ∧ x = .top) ∨ (s.place w = .sleepsFound ∧ x = .found) → s.woken w = true →
      Steps s (.work w) ((s.setWoken w false).goto w x)
  | queuesOwn {w p : Fin (n + 1)} {x : Option (Waking n)} : s.place w = .runs → s.processor w = some p → x = none ∨ x = some .starts →
      Steps s (.makeRunnable (.inl w)) ((s.push p).wake (.inl w) x)
  | queuesGlobal {u : U} : s.call u = none →
      Steps s (.makeRunnable (.inr u)) ({ s with global := s.global + 1 }.wake (.inr u) (some .starts))
  | counts {t : Thread n U} : s.waking t = some .starts → s.searching = 0 →
      Steps s (.wake t) ({ s with searching := 1 }.wake t (some .pops))
  | refused {t : Thread n U} : s.waking t = some .starts → s.searching ≠ 0 → Steps s (.wake t) (s.wake t none)
  | popsIdle {t : Thread n U} {w : Fin (n + 1)} : s.waking t = some .pops → s.idle.getLast? = some w →
      Steps s (.wake t) ({ s with idle := s.idle.dropLast }.wake t (some (.wakes w)))
  | noIdle {t : Thread n U} : s.waking t = some .pops → s.idle = [] → Steps s (.wake t) (s.wake t (some .givesBack))
  | givesBack {t : Thread n U} : s.waking t = some .givesBack →
      Steps s (.wake t) ({ s with searching := s.searching - 1 }.wake t none)
  | wakes {t : Thread n U} {w : Fin (n + 1)} : s.waking t = some (.wakes w) → Steps s (.wake t) (((s.setFlag w true).setWoken w true).wake t none)

theorem advance_steps (h : Processors s) (hs : advance s w = some t) : Steps s (.work w) t := by
  have hbare := h.bare w
  cases hw : s.place w with
  | top =>
    simp only [advance,hw] at hs
    cases hp : s.processor w with
    | some p =>
      rw [hp] at hs
      dsimp only at hs
      rw [if_pos ((h.owner p w).mpr (.inl hp))] at hs
      cases hs
      refine .silent ?_
      constructor <;> simp [hw,hp,At.waking]
    | none =>
      rw [hp] at hs
      cases hs
      refine .silent ?_
      constructor <;> simp [hw,hp,At.waking]
  | acquires i =>
    have hi := h.free hw
    obtain ⟨hnone,hall⟩ := h.acquires w i hw
    simp only [advance,hw,dif_pos hi] at hs
    split at hs
    · rename_i ho
      cases hs
      exact .acquires hi hw ho
    · rename_i ho
      cases hs
      have hnext (j : Fin (n + 1)) (hj : j < i + 1) : s.owner j ≠ none := by
        rcases Nat.lt_succ_iff_lt_or_eq.mp hj with hj | hj
        · exact hall j hj
        · rwa [show j = ⟨i,hi⟩ from Fin.ext hj]
      refine .silent ?_
      constructor <;> simp [hw,hnone,At.waking]
      exact fun j hj => hnext j (by omega)
  | takes p =>
    simp only [advance,hw] at hs
    cases hs
    exact .takes hw
  | looks l x =>
    obtain ⟨p,hp⟩ := h.held w (by rw [hw]; rfl)
    cases x with
    | own =>
      simp only [advance,hw,hp,Option.bind_eq_bind,Option.bind_some] at hs
      split at hs
      · cases hs
        exact .popOwn hw hp
      · cases hs
        refine .silent ?_
        constructor <;> cases l <;> simp_all [At.waking]
    | global =>
      simp only [advance,hw] at hs
      split at hs
      · cases hs
        exact .popGlobal hw
      · cases hs
        refine .silent ?_
        constructor <;> cases l <;> simp_all [At.waking]
    | steal k =>
      simp only [advance,hw,hp,Option.bind_eq_bind,Option.bind_some] at hs
      split at hs
      · split at hs
        · cases hs
          refine .silent ?_
          constructor <;> cases l <;> simp_all [At.waking]
        · cases hs
          exact .robs hw
      · cases hs
        refine .silent ?_
        constructor <;> cases l <;>
          simp_all [At.waking,Look.nothing]
    | moving k =>
      cases k with
      | zero =>
        simp only [advance,hw] at hs
        cases hs
        refine .silent ?_
        constructor <;> cases l <;>
          simp_all [At.waking,Look.found]
      | succ k =>
        simp only [advance,hw,hp,Option.bind_eq_bind,Option.bind_some] at hs
        cases hs
        exact .moves hw hp
  | starts =>
    obtain ⟨p,hp⟩ := h.held w (by rw [hw]; rfl)
    simp only [advance,hw] at hs
    split at hs
    · cases hs
      refine .silent ?_
      constructor <;> simp [hw,hp,At.waking]
    · rename_i hflag
      split at hs
      · rename_i h0
        cases hs
        exact .searches hw (Bool.eq_false_iff.mpr hflag) h0
      · cases hs
        refine .silent ?_
        constructor <;> simp [hw,hp,At.waking]
  | spinsOwn k =>
    obtain ⟨p,hp⟩ := h.held w (by rw [hw]; rfl)
    simp only [advance,hw,hp,Option.bind_eq_bind,Option.bind_some] at hs
    split at hs
    · split at hs <;> cases hs
      · refine .silent ?_
        constructor <;> simp [hw,hp,At.waking]
      · refine .silent ?_
        constructor <;> simp [hw,hp,At.waking]
    · cases hs
      refine .silent ?_
      constructor <;> simp [hw,hp,At.waking]
  | spinsGlobal k =>
    obtain ⟨p,hp⟩ := h.held w (by rw [hw]; rfl)
    simp only [advance,hw] at hs
    split at hs <;> cases hs
    · refine .silent ?_
      constructor <;> simp [hw,hp,At.waking]
    · refine .silent ?_
      constructor <;> simp [hw,hp,At.waking]
  | registers =>
    simp only [advance,hw] at hs
    cases hs
    exact .registers hw
  | stops =>
    obtain ⟨p,hp⟩ := h.held w (by rw [hw]; rfl)
    simp only [advance,hw] at hs
    split at hs
    · rename_i hflag
      cases hs
      exact .stops (.inl ⟨hw,rfl⟩) hflag
    · rename_i hflag
      cases hs
      refine .silent ?_
      constructor <;> simp [hw,hp,hflag,At.waking]
  | stopEnds =>
    simp only [advance,hw] at hs
    cases hs
    exact .ends (.inl ⟨hw,rfl⟩)
  | unregisters =>
    obtain ⟨p,hp⟩ := h.held w (by rw [hw]; rfl)
    simp only [advance,hw] at hs
    split at hs
    · rename_i hmem
      cases hs
      exact .unregisters hw hmem
    · rename_i hmem
      cases hs
      refine .silent ?_
      constructor <;> simp [hw,hp,hmem,At.waking]
  | sleeps =>
    simp only [advance,hw] at hs
    split at hs
    · rename_i hwoken
      cases hs
      exact .wakesUp (.inl ⟨hw,rfl⟩) hwoken
    · cases hs
  | sleepsFound =>
    simp only [advance,hw] at hs
    split at hs
    · rename_i hwoken
      cases hs
      exact .wakesUp (.inr ⟨hw,rfl⟩) hwoken
    · cases hs
  | found =>
    obtain ⟨p,hp⟩ := h.held w (by rw [hw]; rfl)
    simp only [advance,hw] at hs
    split at hs
    · rename_i hflag
      cases hs
      exact .stops (.inr ⟨hw,rfl⟩) hflag
    · cases hs
      refine .silent ?_
      constructor <;> simp [hw,hp,At.waking]
  | foundEnds =>
    simp only [advance,hw] at hs
    cases hs
    refine .ends (.inr ⟨hw,?_⟩)
    split
    · exact .inl rfl
    · exact .inr rfl
  | readsOwn =>
    obtain ⟨p,hp⟩ := h.held w (by rw [hw]; rfl)
    simp only [advance,hw,hp,Option.bind_eq_bind,Option.bind_some] at hs
    cases hs
    refine .silent ?_
    split <;> constructor <;> simp [hw,hp,At.waking]
  | readsGlobal =>
    obtain ⟨p,hp⟩ := h.held w (by rw [hw]; rfl)
    simp only [advance,hw] at hs
    cases hs
    refine .silent ?_
    split <;> constructor <;> simp [hw,hp,At.waking]
  | wakeIdle x | runs =>
    simp only [advance,hw] at hs
    cases hs
  | drops | stopsBare | stopEndsBare | registersBare =>
    rw [hw] at hbare
    cases hbare

theorem wakeIdle_steps {c : Thread n U} {x : Waking n} (hc : s.waking c = some x) : Steps s (.wake c) (wakeIdle s c x) := by
  cases x with
  | starts =>
    by_cases h0 : s.searching = 0
    · rw [wakeIdle,if_pos h0]
      exact .counts hc h0
    · rw [wakeIdle,if_neg h0]
      exact .refused hc h0
  | pops =>
    cases hl : s.idle.getLast? with
    | some w =>
      simp only [wakeIdle,hl]
      exact .popsIdle hc hl
    | none =>
      simp only [wakeIdle,hl]
      exact .noIdle hc (List.getLast?_eq_none_iff.mp hl)
  | givesBack => exact .givesBack hc
  | wakes w => exact .wakes hc

theorem steps_of_step (h : Processors s) (hs : step s a = some t) : Steps s a t := by
  cases a with
  | work w => exact advance_steps h hs
  | leave w =>
    simp only [step] at hs
    split at hs
    · rename_i hw
      obtain ⟨p,hp⟩ := h.held w (by rw [hw]; rfl)
      cases hs
      refine .silent ?_
      constructor <;> simp [hw,hp,At.waking]
    · cases hs
  | makeRunnable c =>
    cases c with
    | inl w =>
      simp only [step,makeRunnable] at hs
      split at hs
      · rename_i hw
        obtain ⟨p,hp⟩ := h.held w (by rw [hw]; rfl)
        rw [hp] at hs
        dsimp only at hs
        rw [if_pos ((h.owner p w).mpr (.inl hp))] at hs
        cases hs
        refine .queuesOwn hw hp ?_
        split
        · exact .inr rfl
        · exact .inl rfl
      · cases hs
    | inr u =>
      simp only [step,makeRunnable] at hs
      split at hs
      · rename_i hu
        cases hs
        exact .queuesGlobal hu
      · cases hs
  | wake c =>
    obtain ⟨x,hx,rfl⟩ := Option.map_eq_some_iff.mp hs
    exact wakeIdle_steps hx

/-! ### Processors stay held -/

omit [DecidableEq U] in
theorem Processors.same (h : Processors s) (ho : t.owner = s.owner) (hp : t.processor = s.processor)
    (hplace : t.place = s.place) : Processors t := by
  refine ⟨?_,?_,?_,?_,?_⟩
  · rw [ho,hp,hplace]; exact h.owner
  · rw [hp,hplace]; exact h.takes
  · rw [ho,hp,hplace]; exact h.acquires
  · rw [hp,hplace]; exact h.held
  · rw [hplace]; exact h.bare

omit [DecidableEq U] in
theorem Processors.goto (h : Processors s) (hheld : x.unheld = false → ∃ p, s.processor w = some p)
    (hacquires : ∀ i, x = .acquires i → s.processor w = none ∧ ∀ j : Fin (n + 1), j < i → s.owner j ≠ none)
    (htakes : ∀ p, s.place w ≠ .takes p ∧ x ≠ .takes p) (hbare : x.bare = false) : Processors (s.goto w x) := by
  refine ⟨fun p v => ?_,fun v p hv => ?_,fun v i hv => ?_,fun v hv => ?_,fun v => ?_⟩ <;> by_cases hvw : v = w
  · subst hvw
    rw [show (s.goto v x).owner p = s.owner p from rfl,h.owner p v]
    simp [State.goto,(htakes p).1,(htakes p).2]
  · simpa [State.goto,hvw] using h.owner p v
  · subst hvw
    simp [State.goto,(htakes p).2] at hv
  · exact h.takes v p (by simpa [State.goto,hvw] using hv)
  · subst hvw
    exact hacquires i (by simpa [State.goto] using hv)
  · exact h.acquires v i (by simpa [State.goto,hvw] using hv)
  · subst hvw
    exact hheld (by simpa [State.goto] using hv)
  · exact h.held v (by simpa [State.goto,hvw] using hv)
  · subst hvw
    simpa [State.goto] using hbare
  · simpa [State.goto,hvw] using h.bare v

omit [DecidableEq U] in
/-- A worker that has a processor goes to a place where it has one. -/
theorem Processors.goes (h : Processors s) (hw : (s.place w).unheld = false) (hx : x.unheld = false) (hb : x.bare = false) :
    Processors (s.goto w x) := by
  refine h.goto (fun _ => h.held w hw) (fun i hi => ?_) (fun p => ⟨fun hp => ?_,fun hp => ?_⟩) hb
  · subst hi; cases hx
  · rw [hp] at hw; cases hw
  · subst hp; cases hx

theorem Processors.wake {c : Thread n U} {y : Option (Waking n)} (h : Processors s)
    (hc : ∀ w, c = .inl w → (s.place w).unheld = false) : Processors (s.wake c y) := by
  cases c with
  | inl w => exact h.goes (hc w rfl) (by cases y <;> rfl) (by cases y <;> rfl)
  | inr u => exact h.same rfl rfl rfl

omit [DecidableEq U] in
theorem unheld_of_waking {c : Thread n U} {y : Waking n} (hc : s.waking c = some y) (w : Fin (n + 1)) (hw : c = .inl w) :
    (s.place w).unheld = false := by
  subst hw
  have hc : (s.place w).waking = some y := hc
  cases hp : s.place w <;> rw [hp] at hc <;> first | rfl | cases hc

omit [DecidableEq U] in
theorem Processors.acquire (h : Processors s) {i : ℕ} (hi : i < n + 1) (hw : s.place w = .acquires i)
    (hnone : s.owner ⟨i,hi⟩ = none) :
    Processors ({ s with owner := Function.update s.owner ⟨i,hi⟩ (some w) }.goto w (.takes ⟨i,hi⟩)) := by
  have hproc := (h.acquires w i hw).1
  refine ⟨fun q v => ?_,fun v q hv => ?_,fun v k hv => ?_,fun v hv => ?_,fun v => ?_⟩ <;> by_cases hvw : v = w
  · subst hvw
    have hold := h.owner q v
    rw [hproc,hw] at hold
    by_cases hq : q = ⟨i,hi⟩
    · simp [State.goto,hq]
    · simpa [State.goto,hq,Ne.symm hq,hproc] using hold
  · have hold := h.owner q v
    by_cases hq : q = ⟨i,hi⟩
    · subst hq
      rw [hnone] at hold
      simpa [State.goto,hvw,Ne.symm hvw] using hold
    · simpa [State.goto,hvw,hq] using hold
  · subst hvw
    exact hproc
  · exact h.takes v q (by simpa [State.goto,hvw] using hv)
  · subst hvw
    simp [State.goto] at hv
  · obtain ⟨h1,h2⟩ := h.acquires v k (by simpa [State.goto,hvw] using hv)
    refine ⟨h1,fun j hj => ?_⟩
    by_cases hji : j = ⟨i,hi⟩
    · simp [State.goto,hji]
    · simpa [State.goto,hji] using h2 j hj
  · subst hvw
    simp [State.goto] at hv
  · exact h.held v (by simpa [State.goto,hvw] using hv)
  · subst hvw
    simp [State.goto]
  · simpa [State.goto,hvw] using h.bare v

omit [DecidableEq U] in
theorem Processors.hold (h : Processors s) (hw : s.place w = .takes p) :
    Processors ((s.hold w (some p)).goto w (.looks .first .own)) := by
  have hproc := h.takes w p hw
  refine ⟨fun q v => ?_,fun v q hv => ?_,fun v k hv => ?_,fun v hv => ?_,fun v => ?_⟩ <;> by_cases hvw : v = w
  · subst hvw
    have hold := h.owner q v
    rw [hproc,hw] at hold
    simpa [State.goto,State.hold] using hold
  · simpa [State.goto,State.hold,hvw] using h.owner q v
  · subst hvw
    simp [State.goto] at hv
  · simpa [State.goto,State.hold,hvw] using h.takes v q (by simpa [State.goto,State.hold,hvw] using hv)
  · subst hvw
    simp [State.goto] at hv
  · simpa [State.goto,State.hold,hvw] using h.acquires v k (by simpa [State.goto,State.hold,hvw] using hv)
  · subst hvw
    simp [State.goto,State.hold]
  · simpa [State.goto,State.hold,hvw] using h.held v (by simpa [State.goto,State.hold,hvw] using hv)
  · subst hvw
    simp [State.goto]
  · simpa [State.goto,State.hold,hvw] using h.bare v

theorem steps_processors (h : Processors s) (hs : Steps s a t) : Processors t := by
  cases hs with
  | silent hq => exact h.goto hq.held hq.acquires hq.takes hq.bare
  | acquires hi hw hnone => exact h.acquire hi hw hnone
  | takes hw => exact h.hold hw
  | @popOwn w p l hw hp =>
    exact Processors.goes (h.same rfl rfl rfl) (by simp [State.take,hw]) (by cases l <;> rfl) (by cases l <;> rfl)
  | @popGlobal w l hw =>
    exact Processors.goes (h.same rfl rfl rfl) (by simp [hw]) (by cases l <;> rfl) (by cases l <;> rfl)
  | @robs w v l k m m' hw => exact Processors.goes (h.same rfl rfl rfl) (by simp [State.take,hw]) rfl rfl
  | @moves w p l k hw hp => exact Processors.goes (h.same rfl rfl rfl) (by simp [State.push,hw]) rfl rfl
  | @searches w hw _ _ => exact Processors.goes (h.same rfl rfl rfl) (by simp [State.setFlag,hw]) rfl rfl
  | @registers w hw => exact Processors.goes (h.same rfl rfl rfl) (by simp [hw]) rfl rfl
  | @stops w x hw _ =>
    rcases hw with ⟨hw,rfl⟩ | ⟨hw,rfl⟩ <;>
      exact Processors.goes (h.same rfl rfl rfl) (by simp [State.setFlag,hw]) rfl rfl
  | @ends w x hw =>
    rcases hw with ⟨hw,rfl⟩ | ⟨hw,rfl | rfl⟩ <;> exact Processors.goes (h.same rfl rfl rfl) (by simp [hw]) rfl rfl
  | @unregisters w hw _ => exact Processors.goes (h.same rfl rfl rfl) (by simp [hw]) rfl rfl
  | @wakesUp w x hw _ =>
    have hs : Processors (s.setWoken w false) := h.same rfl rfl rfl
    rcases hw with ⟨hw,rfl⟩ | ⟨hw,rfl⟩
    · exact hs.goto nofun nofun (fun p => ⟨by simp [State.setWoken,hw],nofun⟩) rfl
    · exact hs.goes (by simp [State.setWoken,hw]) rfl rfl
  | @queuesOwn w p x hw hp _ =>
    refine Processors.wake (h.same rfl rfl rfl) fun v hv => ?_
    cases hv
    simp [State.push,hw]
  | @queuesGlobal u _ => exact Processors.wake (h.same rfl rfl rfl) nofun
  | counts hc _ | popsIdle hc _ | givesBack hc => exact Processors.wake (h.same rfl rfl rfl) (unheld_of_waking hc)
  | refused hc _ | noIdle hc _ => exact h.wake (unheld_of_waking hc)
  | wakes hc => exact Processors.wake (h.same rfl rfl rfl) (unheld_of_waking hc)

end Ens.Tasks.Scheduler
