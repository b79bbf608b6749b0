import Ens.Syntax.Red
import Mathlib.Algebra.BigOperators.Group.List.Basic
import Mathlib.Algebra.GroupWithZero.Nat

/-! # Where the elements of a tree are

An element has an address, the indices of the slots on the way to it, and the address says where it starts. What is written from there on is
the text of the element, and every way of counting the start gives the same.
-/
namespace Ens.Syntax
open Loop
variable {Kind : Type} {slots pre : Slots Kind} {g e child : Green Kind} {i j : ℕ} {path : List ℕ}

namespace Green

def at? : Green Kind → List ℕ → Option (Green Kind)
  | g, [] => some g
  | g, i :: path =>
    match g.slots[i]? with
    | some (some child) => child.at? path
    | _ => none

def offsetAt : Green Kind → List ℕ → ℕ
  | _, [] => 0
  | g, i :: path =>
    slotsWidth g.slots i +
      match g.slots[i]? with
      | some (some child) => child.offsetAt path
      | _ => 0

mutual

def leaves : Green Kind → List (List ℕ)
  | token _ => [[]]
  | node _ slots _ => leavesIn 0 slots
  | list slots _ _ => leavesIn 0 slots

def leavesIn : ℕ → List (Option (Green Kind)) → List (List ℕ)
  | _, [] => []
  | i, slot :: slots => (leavesAt slot).map (i :: ·) ++ leavesIn (i + 1) slots

def leavesAt : Option (Green Kind) → List (List ℕ)
  | none => []
  | some child => child.leaves

end

/-! ### Texts -/

theorem foldl_text (trivia : List (GreenTrivia Kind)) (builder : List ℕ) :
    trivia.foldl (fun builder trivia => builder ++ trivia.text.bytes) builder = builder ++ trivia.flatMap fun trivia => trivia.text.bytes := by
  induction trivia generalizing builder with
  | nil => simp
  | cons t trivia ih => rw [List.foldl_cons,ih,List.flatMap_cons,List.append_assoc]

mutual

theorem writeTo_eq (g : Green Kind) (builder : List ℕ) : g.writeTo builder = builder ++ g.fullText := by
  match g with
  | .token leaf =>
    rw [fullText,writeTo,writeTo,GreenToken.writeTo,GreenToken.writeTo,foldl_text,foldl_text,foldl_text,foldl_text]
    simp
  | .node _ slots _ =>
    rw [fullText,writeTo,writeTo]
    exact writeSlots_eq slots builder
  | .list slots _ _ =>
    rw [fullText,writeTo,writeTo]
    exact writeSlots_eq slots builder

theorem writeSlots_eq (slots : List (Option (Green Kind))) (builder : List ℕ) : writeSlots slots builder = builder ++ writeSlots slots [] := by
  match slots with
  | [] => simp [writeSlots]
  | slot :: slots =>
    rw [writeSlots,writeSlots,writeSlots_eq slots,writeSlots_eq slots (writeSlot slot []),writeSlot_eq slot,List.append_assoc]

theorem writeSlot_eq (slot : Option (Green Kind)) (builder : List ℕ) : writeSlot slot builder = builder ++ writeSlot slot [] := by
  match slot with
  | none => simp [writeSlot]
  | some child =>
    rw [writeSlot,writeSlot]
    exact writeTo_eq child builder

end

theorem writeSlots_cons (slot : Option (Green Kind)) (slots : Slots Kind) :
    writeSlots (slot :: slots) [] = writeSlot slot [] ++ writeSlots slots [] := by
  rw [writeSlots,writeSlots_eq]

theorem writeSlots_append (pre slots : Slots Kind) : writeSlots (pre ++ slots) [] = writeSlots pre [] ++ writeSlots slots [] := by
  induction pre with
  | nil => rfl
  | cons slot pre ih => rw [List.cons_append,writeSlots_cons,writeSlots_cons,ih,List.append_assoc]

/-! ### Widths -/

theorem foldl_width (slots : Slots Kind) (total : ℕ) :
    slots.foldl (fun total slot => total + width slot) total = total + (slots.map width).sum := by
  induction slots generalizing total with
  | nil => rfl
  | cons slot slots ih => rw [List.foldl_cons,ih,List.map_cons,List.sum_cons,Nat.add_assoc]

theorem slotsWidth_eq (slots : Slots Kind) (count : ℕ) : slotsWidth slots count = ((slots.take count).map width).sum := by
  rw [slotsWidth,foldl_width,Nat.zero_add]

theorem slotsWidth_zero (slots : Slots Kind) : slotsWidth slots 0 = 0 := rfl

theorem slotsWidth_succ (slot : Option (Green Kind)) (slots : Slots Kind) (count : ℕ) :
    slotsWidth (slot :: slots) (count + 1) = width slot + slotsWidth slots count := by
  rw [slotsWidth_eq,slotsWidth_eq,List.take_succ_cons,List.map_cons,List.sum_cons]

theorem slotsWidth_all (slots : Slots Kind) : slotsWidth slots slots.length = (slots.map width).sum := by
  rw [slotsWidth_eq,List.take_length]

theorem foldl_offsets (rest : Slots Kind) (offsets : List ℕ) (total : ℕ) :
    (rest.foldl (fun (offsets,total) slot => (offsets ++ [total],total + width slot)) (offsets,total)).1 =
      offsets ++ (List.range rest.length).map fun k => total + slotsWidth rest k := by
  induction rest generalizing offsets total with
  | nil => simp
  | cons slot rest ih =>
    rw [List.foldl_cons,ih,List.length_cons,List.range_succ_eq_map,List.map_cons,List.map_map,List.append_assoc]
    simp [slotsWidth_succ,slotsWidth_zero,Function.comp_def,Nat.add_assoc]

theorem slotOffsetsOf_eq (hi : i < slots.length) : (slotOffsetsOf slots)[i]? = some (slotsWidth slots i) := by
  rw [slotOffsetsOf,foldl_offsets,List.nil_append,List.getElem?_map,List.getElem?_range hi,Option.map_some,Nat.zero_add]

theorem Made.slot (h : Made g) (hchild : g.slots[i]? = some (some child)) : Made child := by
  cases h with
  | token => cases hchild
  | node kind slots hslots => exact hslots child (List.mem_of_getElem? hchild)
  | list slots hslots => exact hslots child (List.mem_of_getElem? hchild)

theorem Made.inside (h : Made g) (hchild : some child ∈ g.slots) : Made child := by
  obtain ⟨k,hk⟩ := List.getElem?_of_mem hchild
  exact h.slot hk

theorem Made.slotOffset (h : Made g) (hi : i < g.slots.length) : g.slotOffset i = .ok (slotsWidth g.slots i) := by
  cases h with
  | token => cases hi
  | node kind slots hslots => rfl
  | list slots hslots =>
    have hstored : (slotOffsetsOf slots)[i]? = some (slotsWidth slots i) := slotOffsetsOf_eq hi
    simp only [newList,Green.slotOffset,Green.slots,hstored]

theorem length_trivia (trivia : List (GreenTrivia Kind)) : (trivia.flatMap fun trivia => trivia.text.bytes).length = triviaWidth trivia := by
  have hfold : ∀ (trivia : List (GreenTrivia Kind)) (total : ℕ), trivia.foldl (fun total trivia => total + trivia.text.length) total =
      total + (trivia.flatMap fun trivia => trivia.text.bytes).length := by
    intro trivia
    induction trivia with
    | nil => simp
    | cons t trivia ih =>
      intro total
      rw [List.foldl_cons,ih,List.flatMap_cons,List.length_append,Text.length,Nat.add_assoc]
  rw [triviaWidth,hfold,Nat.zero_add]

theorem fullText_token (leaf : GreenToken Kind) : (token leaf).fullText =
    (leaf.leading.flatMap fun trivia => trivia.text.bytes) ++ leaf.text.bytes ++ leaf.trailing.flatMap fun trivia => trivia.text.bytes := by
  rw [fullText,writeTo,GreenToken.writeTo,foldl_text,foldl_text,List.nil_append]

theorem length_slots (hslots : ∀ child, some child ∈ slots → child.fullLength = child.fullText.length) :
    (writeSlots slots []).length = (slots.map width).sum := by
  induction slots with
  | nil => rfl
  | cons slot slots ih =>
    rw [writeSlots_cons,List.length_append,ih fun child hchild => hslots child (List.mem_cons_of_mem _ hchild),List.map_cons,List.sum_cons]
    cases slot with
    | none => rfl
    | some child =>
      rw [writeSlot,width,hslots child List.mem_cons_self]
      rfl

theorem fullText_slots (g : Green Kind) (h : ∀ leaf, g ≠ .token leaf) : g.fullText = writeSlots g.slots [] := by
  cases g with
  | token leaf => exact absurd rfl (h leaf)
  | node kind slots fullLength => rw [fullText,writeTo]; rfl
  | list slots offsets fullLength => rw [fullText,writeTo]; rfl

theorem Made.width_eq (h : Made g) : g.fullLength = g.fullText.length := by
  induction h with
  | token kind text leading trailing =>
    rw [fullText_token,List.length_append,List.length_append,length_trivia,length_trivia]
    rfl
  | node kind slots hslots ih =>
    rw [fullText_slots _ (fun leaf he => by cases he)]
    exact (slotsWidth_all slots).trans (length_slots ih).symm
  | list slots hslots ih =>
    rw [fullText_slots _ (fun leaf he => by cases he)]
    exact (slotsWidth_all slots).trans (length_slots ih).symm

theorem Made.width_slots (h : Made g) (hg : ∀ leaf, g ≠ .token leaf) : g.fullLength = (g.slots.map width).sum := by
  cases h with
  | token kind text leading trailing => exact absurd rfl (hg _)
  | node kind slots hslots => exact slotsWidth_all slots
  | list slots hslots => exact slotsWidth_all slots

theorem Made.at (h : Made g) (hat : g.at? path = some e) : Made e := by
  induction path generalizing g with
  | nil =>
    cases hat
    exact h
  | cons i path ih =>
    rw [at?] at hat
    split at hat
    · exact ih (h.slot (by assumption)) hat
    · cases hat

/-- The text of the element at an address stands in the text of the tree from where the address starts on. -/
theorem Made.split (h : Made g) (hat : g.at? path = some e) :
    ∃ before behind, g.fullText = before ++ e.fullText ++ behind ∧ before.length = g.offsetAt path := by
  induction path generalizing g with
  | nil =>
    cases hat
    exact ⟨[],[],by simp,rfl⟩
  | cons i path ih =>
    rw [at?] at hat
    split at hat
    case h_2 => cases hat
    case h_1 child hchild =>
      obtain ⟨before,behind,htext,hlen⟩ := ih (h.slot hchild) hat
      have hg : ∀ leaf, g ≠ .token leaf := by
        rintro leaf rfl
        cases hchild
      obtain ⟨hi,hget⟩ := List.getElem?_eq_some_iff.mp hchild
      have hslots : g.slots = g.slots.take i ++ some child :: g.slots.drop (i + 1) := by
        conv_lhs => rw [← List.take_append_drop i g.slots,List.drop_eq_getElem_cons hi,hget]
      have hbefore : (writeSlots (g.slots.take i) []).length = slotsWidth g.slots i := by
        rw [slotsWidth_eq]
        refine length_slots fun child' hchild' => ?_
        obtain ⟨k,hk⟩ := List.getElem?_of_mem (List.mem_of_mem_take hchild')
        exact (h.slot hk).width_eq
      refine ⟨writeSlots (g.slots.take i) [] ++ before,behind ++ writeSlots (g.slots.drop (i + 1)) [],?_,?_⟩
      · rw [fullText_slots g hg]
        conv_lhs => rw [hslots]
        rw [writeSlots_append,writeSlots_cons,writeSlot,← fullText,htext]
        simp [List.append_assoc]
      · rw [List.length_append,hbefore,hlen,offsetAt,hchild]

end Green

end Ens.Syntax
