import Ens.Json.Scalars

/-! # Items between commas

The elements of an array and the members of an object are read by loops of one kind: each round
reads an item and then a comma, after which it goes on, or the closing bracket.
-/
namespace Ens.Json
open Loop
variable {A S : Type} {text : Text} {s t u x y : Bytes}

/-- The bytes begin with what no whitespace and no closing bracket is. -/
def Begins (s : Bytes) : Prop :=
  ∃ b t, s = b :: t ∧ isWhitespace b = false ∧ b ≠ ']'.toNat ∧ b ≠ '}'.toNat

theorem Begins.ne_nil (h : Begins s) : s ≠ [] := by
  obtain ⟨b,t,rfl,-⟩ := h
  exact List.cons_ne_nil _ _

theorem Strays.ne_nil {inside : Bytes → Bytes → Prop} (h : Strays inside s)
    (hi : ∀ {s t}, inside s t → Begins s) : s ≠ [] := by
  obtain ⟨b,t,h,-⟩ := h
  exact (hi h).ne_nil

structure ReadsItem (text : Text) (read : ℕ → Except Halt (A × ℕ)) (item : Reads A)
    (inside : Bytes → Bytes → Prop) : Prop where
  sound : ∀ {i : ℕ} {s : Bytes}, At text i s → s ≠ [] →
    Yields (read i) (fun r => ∃ t, item s r.1 t ∧ At text r.2 t) (Aborts (Strays inside s))
  complete : ∀ {i : ℕ} {s t : Bytes} {a : A}, At text i s → item s a t → Starts (isFollow · = true) t →
    ∃ j, read i = .ok (a,j) ∧ At text j t
  aborts : ∀ {i : ℕ} {s : Bytes}, At text i s → Strays inside s → read i = .error (.stop .abort)
  begins : ∀ {s t : Bytes} {a : A}, item s a t → Begins s
  leads : ∀ {s t : Bytes}, inside s t → Begins s
  shrinks : ∀ {s t : Bytes} {a : A}, item s a t → t.length ≤ s.length

/-! ### Whitespace -/

theorem At.ws {i : ℕ} (h : At text i s) (hw : Ws s t) (ht : Starts (isWhitespace · = false) t) :
    At text (Cursor.skipWhitespace text i) t := by
  have := h.skipWhitespace
  rwa [hw.dropWhile_eq ht] at this

theorem starts_cons {p : ℕ → Prop} {b : ℕ} (h : p b) : Starts p (b :: t) := fun _ hb =>
  Option.some.inj hb ▸ h

theorem Begins.starts (h : Begins s) : Starts (isWhitespace · = false) s := by
  obtain ⟨b,s,rfl,hb,-⟩ := h
  exact starts_cons hb

/-- Whitespace and then a byte that may follow a value may follow a value. -/
theorem Run.follow {b : ℕ} (h : Ws s (b :: t)) (hb : isFollow b = true) : Starts (isFollow · = true) s := by
  obtain ⟨w,rfl,hw⟩ := h
  cases w with
  | nil => exact starts_cons hb
  | cons a w =>
    refine starts_cons ?_
    simp only [isFollow,hw a (List.mem_cons_self ..),Bool.true_or]

theorem Listed.length_le {item : Reads A} {vs : List A}
    (hitem : ∀ {s t : Bytes} {a : A}, item s a t → t.length ≤ s.length) (h : Listed item s vs x) :
    x.length ≤ s.length := by
  induction h with
  | nil => exact Nat.le_refl _
  | cons hv hu hw _ ih =>
    have := hitem hv
    have := hu.length_le
    have := hw.length_le
    simp only [List.length_cons] at *
    omega

theorem Listed.snoc {item : Reads A} {vs : List A} {v : A} {w : Bytes} (h : Listed item s vs x)
    (hv : item x v y) (hy : Ws y (','.toNat :: w)) (hw : Ws w t) : Listed item s (vs ++ [v]) t := by
  induction h with
  | nil => exact .cons hv hy hw .nil
  | cons h1 h2 h3 _ ih => exact .cons h1 h2 h3 (ih hv)

/-! ### The loop -/

/-- The loop over items that `closer` ends. `Inv` says what a state has read and what is left,
`Good` is asked of all items read, and `result` is what they give. -/
structure ItemLoop (text : Text) (body : S → Except Halt (Flow S (Json × ℕ))) (item : Reads A)
    (inside : Bytes → Bytes → Prop) (closer : ℕ) (Good : List A → Prop) (result : List A → Json)
    (Inv : List A → Bytes → S → Prop) : Prop where
  sound : ∀ {vs : List A} {x : Bytes} {st : S}, Inv vs x st →
    Yields (body st) (fun
      | .done r => ∃ v y t, item x v y ∧ Ws y (closer :: t) ∧ Good (vs ++ [v]) ∧ r.1 = result (vs ++ [v]) ∧
          At text r.2 t
      | .next st' => ∃ v y w x', item x v y ∧ Ws y (','.toNat :: w) ∧ Ws w x' ∧ Inv (vs ++ [v]) x' st' ∧
          x'.length < x.length) (Aborts (Good vs ∧ Strays inside x))
  next : ∀ {vs : List A} {v : A} {x y w x' : Bytes} {st : S}, Inv vs x st → item x v y →
    Ws y (','.toNat :: w) → Ws w x' → Begins x' → Good (vs ++ [v]) →
    ∃ st', body st = .ok (.next st') ∧ Inv (vs ++ [v]) x' st' ∧ x'.length < x.length
  done : ∀ {vs : List A} {v : A} {x y t : Bytes} {st : S}, Inv vs x st → item x v y → Ws y (closer :: t) →
    Good (vs ++ [v]) → ∃ j, body st = .ok (.done (result (vs ++ [v]),j)) ∧ At text j t
  aborts : ∀ {vs : List A} {x : Bytes} {st : S}, Inv vs x st → Strays inside x →
    body st = .error (.stop .abort)
  begins : ∀ {s t : Bytes} {a : A}, item s a t → Begins s
  leads : ∀ {s t : Bytes}, inside s t → Begins s
  init : ∀ {vs ws : List A}, Good (vs ++ ws) → Good vs

namespace ItemLoop
variable {body : S → Except Halt (Flow S (Json × ℕ))} {item : Reads A} {inside : Bytes → Bytes → Prop}
variable {closer : ℕ} {Good : List A → Prop} {result : List A → Json} {Inv : List A → Bytes → S → Prop}
variable {vs ws : List A} {v : A} {st : S} {fuel : ℕ}

theorem loop_sound (hl : ItemLoop text body item inside closer Good result Inv) (h : Listed item u vs x)
    (hs : Inv vs x st) (hf : x.length < fuel) : Yields (loop (.stop .endless) body fuel st)
      (fun r => ∃ vs v x y t, Listed item u vs x ∧ item x v y ∧ Ws y (closer :: t) ∧ Good (vs ++ [v]) ∧
        r.1 = result (vs ++ [v]) ∧ At text r.2 t)
      (Aborts (∃ vs x, Listed item u vs x ∧ Good vs ∧ Strays inside x)) := by
  induction fuel generalizing vs x st with
  | zero => omega
  | succ fuel ih =>
    have hround := hl.sound hs
    unfold loop
    cases hb : body st with
    | error e =>
      rw [hb] at hround
      exact Aborts.mono (fun hstray => ⟨vs,x,h,hstray.1,hstray.2⟩) hround
    | ok flow =>
      rw [hb] at hround
      cases flow with
      | done r =>
        obtain ⟨v,y,t,hv,hy,hg,hr,ht⟩ := hround
        exact ⟨vs,v,x,y,t,h,hv,hy,hg,hr,ht⟩
      | next st' =>
        obtain ⟨v,y,w,x',hv,hy,hw,hs',hlt⟩ := hround
        exact ih (h.snoc hv hy hw) hs' (by omega)

theorem rounds (hl : ItemLoop text body item inside closer Good result Inv) (h : Listed item u ws x)
    (hx : Begins x) (hs : Inv vs u st) (hg : Good (vs ++ ws)) (hf : u.length < fuel) :
    ∃ fuel' st', Inv (vs ++ ws) x st' ∧ x.length < fuel' ∧
      loop (.stop .endless) body fuel st = loop (.stop .endless) body fuel' st' := by
  induction h generalizing vs st fuel with
  | nil => exact ⟨fuel,st,by simpa using hs,hf,rfl⟩
  | @cons s y w x' t v ws hv hy hw hrest ih =>
    have hx' : Begins x' := by
      cases hrest with
      | nil => exact hx
      | cons hv' => exact hl.begins hv'
    rw [← List.singleton_append,← List.append_assoc] at hg ⊢
    obtain ⟨st₁,hround,hs₁,hlt⟩ := hl.next hs hv hy hw hx' (hl.init hg)
    obtain ⟨fuel,rfl⟩ : ∃ f, fuel = f + 1 := ⟨fuel - 1,by omega⟩
    obtain ⟨fuel',st',hs',hf',heq⟩ := ih hx hs₁ hg (show x'.length < fuel by omega)
    exact ⟨fuel',st',hs',hf',by rw [loop_next hround,heq]⟩

theorem loop_complete (hl : ItemLoop text body item inside closer Good result Inv) (h : Listed item u vs x)
    (hv : item x v y) (hy : Ws y (closer :: t)) (hg : Good (vs ++ [v])) (hs : Inv [] u st)
    (hf : u.length < fuel) :
    ∃ j, loop (.stop .endless) body fuel st = .ok (result (vs ++ [v]),j) ∧ At text j t := by
  obtain ⟨fuel',st',hs',hf',heq⟩ := hl.rounds h (hl.begins hv) hs (hl.init hg) hf
  obtain ⟨j,hround,hj⟩ := hl.done hs' hv hy hg
  obtain ⟨fuel',rfl⟩ : ∃ f, fuel' = f + 1 := ⟨fuel' - 1,by omega⟩
  exact ⟨j,by rw [heq,loop_done hround]; rfl,hj⟩

theorem loop_aborts (hl : ItemLoop text body item inside closer Good result Inv) (h : Listed item u vs x)
    (hg : Good vs) (hx : Strays inside x) (hs : Inv [] u st) (hf : u.length < fuel) :
    loop (.stop .endless) body fuel st = .error (.stop .abort) := by
  obtain ⟨fuel',st',hs',hf',heq⟩ := hl.rounds h (by obtain ⟨b,t,hi,-⟩ := hx; exact hl.leads hi) hs hg hf
  obtain ⟨fuel',rfl⟩ : ∃ f, fuel' = f + 1 := ⟨fuel' - 1,by omega⟩
  rw [heq,loop,hl.aborts hs' hx]

end ItemLoop
end Ens.Json
