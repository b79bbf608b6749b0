import Mathlib.Data.Nat.Notation

/-! # Loops that may fail

A program may stop with an error, and a loop may run out of its fuel, which is an error of
its own. A loop whose body keeps an invariant and makes a measure smaller ends within as many
rounds as the measure says.
-/
namespace Ens.Loop
variable {E S R : Type*}

@[simp] theorem ok_bind {A B : Type} (a : A) (f : A → Except E B) : (Except.ok a >>= f) = f a := rfl

@[simp] theorem error_bind {A B : Type} (e : E) (f : A → Except E B) :
    ((Except.error e : Except E A) >>= f) = .error e := rfl

theorem bind_ok {A B : Type} {x : Except E A} {f : A → Except E B} {b : B} (h : (x >>= f) = .ok b) : ∃ a, x = .ok a ∧ f a = .ok b := by
  cases x with
  | error e => cases h
  | ok a => exact ⟨a,rfl,h⟩

inductive Flow (S R : Type*)
  | next (s : S)
  | done (r : R)

/-- At most `fuel` rounds of a loop. -/
def loop (out : E) (body : S → Except E (Flow S R)) : ℕ → S → Except E R
  | 0, _ => .error out
  | fuel + 1, s =>
    match body s with
    | .error e => .error e
    | .ok (.done r) => .ok r
    | .ok (.next s') => loop out body fuel s'

variable {out : E} {body : S → Except E (Flow S R)} {fuel : ℕ} {s s' : S} {r : R}

theorem loop_done (h : body s = .ok (.done r)) : loop out body (fuel + 1) s = .ok r := by
  simp [loop,h]

theorem loop_next (h : body s = .ok (.next s')) :
    loop out body (fuel + 1) s = loop out body fuel s' := by
  simp [loop,h]

/-- Total correctness: the body keeps `I` and makes `m` smaller until it ends with `Q`. -/
theorem loop_ok {I : S → Prop} {Q : R → Prop} (m : S → ℕ)
    (hbody : ∀ s, I s → (∃ r, body s = .ok (.done r) ∧ Q r) ∨
      ∃ s', body s = .ok (.next s') ∧ I s' ∧ m s' < m s)
    (hI : I s) (hm : m s < fuel) : ∃ r, loop out body fuel s = .ok r ∧ Q r := by
  induction fuel generalizing s with
  | zero => omega
  | succ fuel ih =>
    rcases hbody s hI with ⟨r,hr,hq⟩ | ⟨s',hs,hI',hlt⟩
    · exact ⟨r,loop_done hr,hq⟩
    · rw [loop_next hs]
      exact ih hI' (by omega)

/-- Total correctness where the invariant itself says how many rounds are left at most. -/
theorem loop_within {I : ℕ → S → Prop} {Q : R → Prop}
    (hbody : ∀ n s, I n s → (∃ r, body s = .ok (.done r) ∧ Q r) ∨
      ∃ s' m, body s = .ok (.next s') ∧ I m s' ∧ m < n)
    {n : ℕ} (hI : I n s) (hn : n < fuel) : ∃ r, loop out body fuel s = .ok r ∧ Q r := by
  induction fuel generalizing s n with
  | zero => omega
  | succ fuel ih =>
    rcases hbody n s hI with ⟨r,hr,hq⟩ | ⟨s',m,hs,hI',hlt⟩
    · exact ⟨r,loop_done hr,hq⟩
    · rw [loop_next hs]
      exact ih hI' (by omega)

theorem loop_ends {I : S → Prop} (m : S → ℕ)
    (hbody : ∀ s, I s → (∃ r, body s = .ok (.done r)) ∨
      ∃ s', body s = .ok (.next s') ∧ I s' ∧ m s' < m s)
    (hI : I s) (hm : m s < fuel) : ∃ r, loop out body fuel s = .ok r := by
  obtain ⟨r,hr,-⟩ := loop_ok (Q := fun _ => True) m
    (fun s hs => (hbody s hs).imp_left fun ⟨r,hr⟩ => ⟨r,hr,trivial⟩) hI hm
  exact ⟨r,hr⟩

theorem loop_error {e : E} (hbody : ∀ s, ∃ f, body s = .ok f) (h : loop out body fuel s = .error e) : e = out := by
  induction fuel generalizing s with
  | zero =>
    cases h
    rfl
  | succ fuel ih =>
    obtain ⟨f,hf⟩ := hbody s
    cases f with
    | done r =>
      rw [loop_done hf] at h
      cases h
    | next s' =>
      rw [loop_next hf] at h
      exact ih h

theorem loop_post {Q : R → Prop} (hdone : ∀ s r, body s = .ok (.done r) → Q r) (h : loop out body fuel s = .ok r) : Q r := by
  induction fuel generalizing s with
  | zero => cases h
  | succ fuel ih =>
    rw [loop] at h
    split at h
    · cases h
    · rename_i hr
      cases h
      exact hdone s _ hr
    · exact ih h

theorem loop_le {m : S → ℕ} {e : R → ℕ} (hnext : ∀ s s', body s = .ok (.next s') → m s ≤ m s')
    (hdone : ∀ s r, body s = .ok (.done r) → m s ≤ e r) (h : loop out body fuel s = .ok r) : m s ≤ e r := by
  induction fuel generalizing s with
  | zero => cases h
  | succ fuel ih =>
    rw [loop] at h
    split at h
    · cases h
    · rename_i hr
      cases h
      exact hdone s _ hr
    · rename_i s' hs
      exact Nat.le_trans (hnext s s' hs) (ih h)

/-- A second loop follows a first one round by round, as long as the first one ends with what it started with. -/
theorem loop_follow {S' R' : Type*} {body' : S' → Except E (Flow S' R')} {I : S → S' → Prop} {Q : R → R' → Prop} (m : S → ℕ)
    (e : R → ℕ) (hnext : ∀ s s', body s = .ok (.next s') → m s ≤ m s') (hdone : ∀ s r, body s = .ok (.done r) → m s ≤ e r)
    (hstep : ∀ s v s', I s v → body s = .ok (.next s') → m s' = m s → ∃ v', body' v = .ok (.next v') ∧ I s' v')
    (hend : ∀ s v r, I s v → body s = .ok (.done r) → e r = m s → ∃ r', body' v = .ok (.done r') ∧ Q r r')
    {more : ℕ} (hf : fuel ≤ more) {v : S'} (hI : I s v) (h : loop out body fuel s = .ok r) (hr : e r = m s) :
    ∃ r', loop out body' more v = .ok r' ∧ Q r r' := by
  induction fuel generalizing s v more with
  | zero => cases h
  | succ fuel ih =>
    obtain ⟨more,rfl⟩ : ∃ k, more = k + 1 := ⟨more - 1,by omega⟩
    rw [loop] at h
    split at h
    · cases h
    · rename_i hb
      cases h
      obtain ⟨r',hb',hq⟩ := hend s v _ hI hb hr
      exact ⟨r',loop_done hb',hq⟩
    · rename_i s' hb
      have hle := hnext s s' hb
      have hle' := loop_le hnext hdone h
      obtain ⟨v',hb',hI'⟩ := hstep s v s' hI hb (by omega)
      rw [loop_next hb']
      exact ih (by omega) hI' h (by omega)

/-- A fold that never fails on the members of a list does not fail on the list. -/
theorem foldlM_ok {A B E : Type} {f : B → A → Except E B} {l : List A}
    (hf : ∀ a ∈ l, ∀ b, ∃ b', f b a = .ok b') (b : B) : ∃ b', l.foldlM f b = .ok b' := by
  induction l generalizing b with
  | nil => exact ⟨b,rfl⟩
  | cons a l ih =>
    obtain ⟨b',hb⟩ := hf a (List.mem_cons_self ..) b
    rw [List.foldlM_cons,hb,ok_bind]
    exact ih (fun a' ha => hf a' (List.mem_cons_of_mem _ ha)) b'

theorem foldlM_range {B E : Type} {f : B → ℕ → Except E B} {n : ℕ} {I : ℕ → B → Prop}
    (hstep : ∀ i < n, ∀ b, I i b → ∃ b', f b i = .ok b' ∧ I (i + 1) b') {b : B} (h : I 0 b) :
    ∃ b', (List.range n).foldlM f b = .ok b' ∧ I n b' := by
  induction n with
  | zero => exact ⟨b,rfl,h⟩
  | succ n ih =>
    obtain ⟨b',hb,hI⟩ := ih fun i hi => hstep i (Nat.lt_succ_of_lt hi)
    obtain ⟨b'',hb',hI'⟩ := hstep n (Nat.lt_succ_self n) b' hI
    refine ⟨b'',?_,hI'⟩
    rw [List.range_succ,List.foldlM_append,hb,ok_bind,List.foldlM_cons,hb',ok_bind]
    rfl

end Ens.Loop
