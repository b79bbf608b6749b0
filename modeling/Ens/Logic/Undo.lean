import Mathlib.Logic.Function.Basic

/-! # Undoing changes

A log of what changes replaced, newest first. Putting it back leaves at each address it names what the oldest change
there replaced, and every other address as it was.
-/
namespace Ens.Undo
variable {A V : Type*} [DecidableEq A]

def undo (log : List (A × V)) (f : A → V) : A → V := log.foldl (fun f e => Function.update f e.1 e.2) f

/-- The log names an address. -/
def Logged (log : List (A × V)) (a : A) : Prop := ∃ e ∈ log, e.1 = a

variable {log new : List (A × V)} {f g : A → V} {a : A} {v : V}

@[simp] theorem undo_nil : undo [] f = f := rfl

theorem undo_cons {e : A × V} : undo (e :: log) f = undo log (Function.update f e.1 e.2) := rfl

theorem undo_append : undo (new ++ log) f = undo log (undo new f) := List.foldl_append

theorem undo_congr (h : Logged log a ∨ f a = g a) : undo log f a = undo log g a := by
  induction log generalizing f g with
  | nil => exact h.resolve_left fun ⟨_,he,_⟩ => List.not_mem_nil he
  | cons e log ih =>
    rw [undo_cons,undo_cons]
    refine ih ?_
    by_cases ha : a = e.1
    · subst ha
      exact .inr (by simp)
    · rcases h with ⟨d,hd,hda⟩ | h
      · rcases List.mem_cons.mp hd with rfl | hd
        · exact absurd hda.symm ha
        · exact .inl ⟨d,hd,hda⟩
      · exact .inr (by simp [ha,h])

theorem undo_absent (h : ¬Logged log a) : undo log f a = f a := by
  induction log generalizing f with
  | nil => rfl
  | cons e log ih =>
    rw [undo_cons,ih fun ⟨d,hd,hda⟩ => h ⟨d,List.mem_cons_of_mem e hd,hda⟩]
    exact Function.update_of_ne (fun ha => h ⟨e,List.mem_cons_self ..,ha.symm⟩) ..

theorem undo_change (h : ∀ b, b ≠ a → g b = f b) : undo [(a,f a)] g = f := by
  funext b
  by_cases hb : b = a
  · subst hb
    simp [undo]
  · simp [undo,hb,h b hb]

end Ens.Undo
