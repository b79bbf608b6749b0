import Mathlib.Logic.Relation
import Mathlib.Data.List.Basic

/-! # Nodes with one link each

Where every node has at most one link, the links run together but never apart: a node on a cycle is reached again from wherever it leads, and
clearing the link of one node of a cycle breaks that cycle and no other.
-/
namespace Ens.Links
open Relation
variable {α : Type*} {f g : α → Option α} {a b c d r : α}

def Reaches (f : α → Option α) : α → α → Prop := TransGen fun a b => f a = some b

def OnCycle (f : α → Option α) (a : α) : Prop := Reaches f a a

/-- Two nodes of one cycle. -/
def Together (f : α → Option α) (a b : α) : Prop := Reaches f a b ∧ Reaches f b a

theorem Together.left (h : Together f a b) : OnCycle f a := h.1.trans h.2

theorem Together.right (h : Together f a b) : OnCycle f b := h.2.trans h.1

theorem Together.symm (h : Together f a b) : Together f b a := ⟨h.2,h.1⟩

theorem Together.trans (h : Together f a b) (h' : Together f b c) : Together f a c := ⟨h.1.trans h'.1,h'.2.trans h.2⟩

theorem Reaches.mono (h : ∀ a b, g a = some b → f a = some b) (hr : Reaches g a b) : Reaches f a b := TransGen.mono h _ _ hr

theorem Reaches.link (h : Reaches f a b) : ∃ c, f a = some c := by
  cases TransGen.head'_iff.1 h with
  | intro c hc => exact ⟨c,hc.1⟩

theorem OnCycle.back (h : OnCycle f a) (hr : Reaches f a b) : Reaches f b a := by
  have next : ∀ {b c}, Reaches f b a → f b = some c → Reaches f c a := by
    intro b c hb hc
    obtain ⟨d,hd,hrest⟩ := TransGen.head'_iff.1 hb
    cases hd.symm.trans hc
    rcases reflTransGen_iff_eq_or_transGen.1 hrest with rfl | hrest
    · exact h
    · exact hrest
  induction hr with
  | single hc => exact next h hc
  | tail _ hc ih => exact next ih hc

theorem OnCycle.together (h : OnCycle f a) (hr : Reaches f a b) : Together f a b := ⟨hr,h.back hr⟩

/-- A set the links do not leave, and in which none leads to a node of it, has no cycle through that node. -/
theorem not_onCycle_of_closed {S : α → Prop} (ha : S a) (h : ∀ b, S b → ∀ c, f b = some c → S c ∧ c ≠ a) : ¬ OnCycle f a := by
  intro hc
  have hall : ∀ {b}, Reaches f a b → S b ∧ b ≠ a := by
    intro b hr
    induction hr with
    | single hc => exact h _ ha _ hc
    | tail _ hc ih => exact h _ ih.1 _ hc
  exact (hall hc).2 rfl

/-! ### Clearing links -/

variable [DecidableEq α]

def cut (f : α → Option α) (R : List α) (a : α) : Option α := if a ∈ R then none else f a

theorem cut_sub {R : List α} (h : cut f R a = some b) : f a = some b := by
  unfold cut at h
  split at h
  · cases h
  · exact h

/-- The cycles left are those through no node whose link was cleared. -/
theorem onCycle_cut {R : List α} : OnCycle (cut f R) a ↔ OnCycle f a ∧ ∀ r ∈ R, ¬ Together f a r := by
  constructor
  · intro h
    have hf : OnCycle f a := Reaches.mono (fun _ _ => cut_sub) h
    refine ⟨hf,fun r hr ht => ?_⟩
    have along : ∀ {b}, Reaches f a b → Reaches (cut f R) a b := by
      intro b hb
      induction hb with
      | single hc =>
        obtain ⟨d,hd⟩ := h.link
        cases hc.symm.trans (cut_sub hd)
        exact .single hd
      | tail _ hc ih =>
        obtain ⟨d,hd⟩ := (h.back ih).link
        cases hc.symm.trans (cut_sub hd)
        exact ih.tail hd
    obtain ⟨d,hd⟩ := (h.back (along ht.1)).link
    simp [cut,hr] at hd
  · rintro ⟨h,hno⟩
    have kept : ∀ {b c}, Together f a b → f b = some c → cut f R b = some c := by
      intro b c hb hc
      rw [cut,if_neg fun hr => hno b hr hb,hc]
    have along : ∀ {b}, Reaches f a b → Reaches (cut f R) a b := by
      intro b hb
      induction hb with
      | single hc => exact .single (kept ⟨h,h⟩ hc)
      | tail hb hc ih => exact ih.tail (kept (h.together hb) hc)
    exact along h

/-! ### How far a node is from the end -/

inductive Height (f : α → Option α) : Option α → ℕ → Prop
  | top : Height f none 0
  | step {a : α} {n : ℕ} : Height f (f a) n → Height f (some a) (n + 1)

omit [DecidableEq α] in
theorem Height.unique {x : Option α} {m n : ℕ} (h : Height f x m) (h' : Height f x n) : m = n := by
  induction h generalizing n with
  | top =>
    cases h'
    rfl
  | step _ ih =>
    cases h' with
    | step h' => rw [ih h']

end Ens.Links
