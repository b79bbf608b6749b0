import Ens.Syntax.Places

/-! # The red tree is a faithful view

An element reached from the root by any steps starts where its address says, and what its spans name is its text.
-/
set_option linter.all false
namespace Ens.Syntax
open Loop
variable {Kind : Type} {slots : Slots Kind} {g child : Green Kind} {node parent : SyntaxNode Kind} {i offset : ℕ} {path q : List ℕ}

/-! ### The first and the last token -/

structure TokenAt (g : Green Kind) (offset : ℕ) (path : List ℕ) (t : SyntaxToken Kind) : Prop where
  at_path : g.at? path = some (.token t.green)
  start : t.fullStart = offset + g.offsetAt path

structure TokenIn (slots : Slots Kind) (first offset : ℕ) (path : List ℕ) (t : SyntaxToken Kind) : Prop where
  in_slot : ∃ (k : ℕ) (child : Green Kind) (rest : List ℕ), path = (first + k) :: rest ∧ slots[k]? = some (some child) ∧
    TokenAt child (offset + Green.slotsWidth slots k) rest t

theorem TokenIn.at {t : SyntaxToken Kind} (h : TokenIn g.slots 0 offset path t) : TokenAt g offset path t := by
  obtain ⟨k,child,rest,rfl,hslot,hat,hstart⟩ := h
  rw [Nat.zero_add]
  refine ⟨?_,?_⟩
  · rw [Green.at?,hslot]
    exact hat
  · rw [hstart,Green.offsetAt,hslot,Nat.add_assoc]

theorem TokenIn.here {t : SyntaxToken Kind} {rest : List ℕ} (h : TokenAt child offset rest t) :
    TokenIn (some child :: slots) i offset (i :: rest) t := ⟨0,child,rest,rfl,rfl,h⟩

theorem TokenIn.behind {t : SyntaxToken Kind} {slot : Option (Green Kind)} (h : TokenIn slots (i + 1) (offset + Green.width slot) path t) :
    TokenIn (slot :: slots) i offset path t := by
  obtain ⟨k,child,rest,rfl,hslot,ht⟩ := h
  refine ⟨k + 1,child,rest,by rw [Nat.add_right_comm,Nat.add_assoc],hslot,?_⟩
  rwa [Green.slotsWidth_succ,← Nat.add_assoc]

/-- What is found if anything is, and found where it is said to be. -/
def Finds {A : Type} (found : Option A) (path : Option (List ℕ)) (P : List ℕ → A → Prop) : Prop :=
  match path with
  | none => found = none
  | some path => ∃ a, found = some a ∧ P path a

theorem Finds.mono {A : Type} {found : Option A} {path : Option (List ℕ)} {P Q : List ℕ → A → Prop} (h : Finds found path P)
    (hpq : ∀ path a, P path a → Q path a) : Finds found path Q := by
  cases path with
  | none => exact h
  | some path =>
    obtain ⟨a,ha,hp⟩ := h
    exact ⟨a,ha,hpq path a hp⟩

mutual

theorem firstOf_finds (g : Green Kind) (offset : ℕ) (parent : Option (SyntaxNode Kind)) :
    Finds (firstOf g offset parent) g.leaves.head? (TokenAt g offset) := by
  match g with
  | .token leaf =>
    rw [firstOf,Green.leaves]
    exact ⟨_,rfl,rfl,rfl⟩
  | .node kind slots fullLength =>
    rw [firstOf,Green.leaves]
    exact (firstIn_finds slots 0 offset _).mono fun path t ht => TokenIn.at (g := .node kind slots fullLength) ht
  | .list slots offsets fullLength =>
    rw [firstOf,Green.leaves]
    exact (firstIn_finds slots 0 offset _).mono fun path t ht => TokenIn.at (g := .list slots offsets fullLength) ht

theorem firstIn_finds (slots : List (Option (Green Kind))) (i offset : ℕ) (node : SyntaxNode Kind) :
    Finds (firstIn slots offset node) (Green.leavesIn i slots).head? (TokenIn slots i offset) := by
  match slots with
  | [] =>
    rw [firstIn,Green.leavesIn]
    rfl
  | slot :: slots =>
    have hslot := firstAt_finds slot offset node
    have hrest := firstIn_finds slots (i + 1) (offset + Green.width slot) node
    rw [firstIn,Green.leavesIn,List.head?_append,List.head?_map]
    cases hl : (Green.leavesAt slot).head? with
    | none =>
      rw [hl] at hslot
      have hnone : firstAt slot offset node = none := hslot
      rw [hnone]
      exact hrest.mono fun path t ht => TokenIn.behind ht
    | some rest =>
      rw [hl] at hslot
      obtain ⟨t,ht,child,rfl,hat⟩ := hslot
      rw [ht]
      exact ⟨t,rfl,TokenIn.here hat⟩

theorem firstAt_finds (slot : Option (Green Kind)) (offset : ℕ) (node : SyntaxNode Kind) :
    Finds (firstAt slot offset node) (Green.leavesAt slot).head? fun path t => ∃ child, slot = some child ∧ TokenAt child offset path t := by
  match slot with
  | none =>
    rw [firstAt,Green.leavesAt]
    rfl
  | some child =>
    rw [firstAt,Green.leavesAt]
    exact (firstOf_finds child offset _).mono fun path t ht => ⟨child,rfl,ht⟩

end

/-- What the loop from the end has found, or that it has come to the start. -/
def FindsLast (found : SyntaxToken Kind ⊕ ℕ) (offset : ℕ) (path : Option (List ℕ)) (P : List ℕ → SyntaxToken Kind → Prop) : Prop :=
  match path with
  | none => found = .inr offset
  | some path => ∃ t, found = .inl t ∧ P path t

theorem FindsLast.finds {found : SyntaxToken Kind ⊕ ℕ} {path : Option (List ℕ)} {P : List ℕ → SyntaxToken Kind → Prop}
    (h : FindsLast found offset path P) : Finds found.getLeft? path P := by
  cases path with
  | none =>
    have hnone : found = .inr offset := h
    rw [hnone]
    rfl
  | some path =>
    obtain ⟨t,ht,hp⟩ := h
    rw [ht]
    exact ⟨t,rfl,hp⟩

mutual

theorem lastOf_finds (g : Green Kind) (h : g.Made) (offset : ℕ) (parent : Option (SyntaxNode Kind)) :
    Finds (lastOf g offset parent) g.leaves.getLast? (TokenAt g offset) := by
  match g with
  | .token leaf =>
    rw [lastOf,Green.leaves]
    exact ⟨_,rfl,rfl,rfl⟩
  | .node kind slots fullLength =>
    have hwidth : fullLength = (slots.map Green.width).sum := h.width_slots fun leaf he => by cases he
    rw [lastOf,Green.leaves,hwidth]
    exact (lastIn_finds slots (fun child hchild => h.inside hchild) 0 offset _).finds.mono fun path t ht =>
      TokenIn.at (g := .node kind slots _) ht
  | .list slots offsets fullLength =>
    have hwidth : fullLength = (slots.map Green.width).sum := h.width_slots fun leaf he => by cases he
    rw [lastOf,Green.leaves,hwidth]
    exact (lastIn_finds slots (fun child hchild => h.inside hchild) 0 offset _).finds.mono fun path t ht =>
      TokenIn.at (g := .list slots offsets _) ht

theorem lastIn_finds (slots : List (Option (Green Kind))) (h : ∀ child, some child ∈ slots → child.Made) (i offset : ℕ)
    (node : SyntaxNode Kind) : FindsLast (lastIn slots (offset + (slots.map Green.width).sum) node) offset (Green.leavesIn i slots).getLast?
      (TokenIn slots i offset) := by
  match slots with
  | [] =>
    rw [lastIn,Green.leavesIn]
    rfl
  | slot :: slots =>
    have hslot := lastAt_finds slot (fun child hchild => h child (hchild ▸ List.mem_cons_self)) offset node
    have hrest := lastIn_finds slots (fun child hchild => h child (List.mem_cons_of_mem _ hchild)) (i + 1) (offset + Green.width slot) node
    rw [lastIn,Green.leavesIn,List.getLast?_append,List.getLast?_map,List.map_cons,List.sum_cons,← Nat.add_assoc]
    cases hr : (Green.leavesIn (i + 1) slots).getLast? with
    | some path =>
      rw [hr] at hrest
      obtain ⟨t,ht,hin⟩ := hrest
      rw [ht]
      exact ⟨t,rfl,hin.behind⟩
    | none =>
      rw [hr] at hrest
      have hstart : lastIn slots (offset + Green.width slot + (slots.map Green.width).sum) node = .inr (offset + Green.width slot) := hrest
      rw [hstart]
      dsimp only
      rw [Nat.add_sub_cancel]
      cases hl : (Green.leavesAt slot).getLast? with
      | none =>
        rw [hl] at hslot
        have hnone : lastAt slot offset node = none := hslot
        rw [hnone]
        rfl
      | some rest =>
        rw [hl] at hslot
        obtain ⟨t,ht,child,rfl,hat⟩ := hslot
        rw [ht]
        exact ⟨t,rfl,TokenIn.here hat⟩

theorem lastAt_finds (slot : Option (Green Kind)) (h : ∀ child, slot = some child → child.Made) (offset : ℕ) (node : SyntaxNode Kind) :
    Finds (lastAt slot offset node) (Green.leavesAt slot).getLast? fun path t => ∃ child, slot = some child ∧ TokenAt child offset path t := by
  match slot with
  | none =>
    rw [lastAt,Green.leavesAt]
    rfl
  | some child =>
    rw [lastAt,Green.leavesAt]
    exact (lastOf_finds child (h child rfl) offset _).mono fun path t ht => ⟨child,rfl,ht⟩

end

/-! ### Steps -/

/-- A node, not a token. -/
def IsNode (g : Green Kind) : Prop := ∀ leaf, g ≠ .token leaf

theorem firstToken_finds (hnode : IsNode node.green) : Finds node.firstToken node.green.leaves.head? (TokenAt node.green node.fullStart) := by
  obtain ⟨green,fullStart,parent⟩ := node
  have hfirst := firstOf_finds green fullStart parent
  cases green with
  | token leaf => exact absurd rfl (hnode leaf)
  | node kind slots fullLength =>
    rw [firstOf] at hfirst
    exact hfirst
  | list slots offsets fullLength =>
    rw [firstOf] at hfirst
    exact hfirst

theorem lastToken_finds (h : node.green.Made) (hnode : IsNode node.green) :
    Finds node.lastToken node.green.leaves.getLast? (TokenAt node.green node.fullStart) := by
  obtain ⟨green,fullStart,parent⟩ := node
  have hlast := lastOf_finds green h fullStart parent
  cases green with
  | token leaf => exact absurd rfl (hnode leaf)
  | node kind slots fullLength =>
    rw [lastOf] at hlast
    exact hlast
  | list slots offsets fullLength =>
    rw [lastOf] at hlast
    exact hlast

def nodeSlotsFrom (i : ℕ) : Slots Kind → List ℕ
  | [] => []
  | some (.node ..) :: slots | some (.list ..) :: slots => i :: nodeSlotsFrom (i + 1) slots
  | _ :: slots => nodeSlotsFrom (i + 1) slots

def nodeSlots (g : Green Kind) : List ℕ := nodeSlotsFrom 0 g.slots

structure InSlot (node : SyntaxNode Kind) (index : ℕ) (child : Green Kind) (start : ℕ) : Prop where
  slot : node.green.slots[index]? = some (some child)
  start : start = node.fullStart + Green.slotsWidth node.green.slots index

theorem slotStart_ok (h : node.green.Made) (hi : i < node.green.slots.length) :
    node.slotStart i = .ok (node.fullStart + Green.slotsWidth node.green.slots i) := by
  rw [SyntaxNode.slotStart,h.slotOffset hi,ok_bind]

theorem slot_ok {slot : Option (Green Kind)} (hslot : node.slot i = .ok slot) : node.green.slots[i]? = some slot := by
  rw [SyntaxNode.slot] at hslot
  split at hslot
  · cases hslot
    assumption
  · cases hslot

theorem tokenAt_in (h : node.green.Made) {t : SyntaxToken Kind} (ht : node.tokenAt i = .ok t) :
    InSlot node i (.token t.green) t.fullStart := by
  rw [SyntaxNode.tokenAt] at ht
  obtain ⟨found,hfound,ht⟩ := bind_ok ht
  rw [SyntaxNode.tokenAtOrNull] at hfound
  obtain ⟨slot,hslot,hfound⟩ := bind_ok hfound
  have hat := slot_ok hslot
  have hstart := slotStart_ok h (List.getElem?_eq_some_iff.mp hat).1
  match slot,hfound with
  | some (.token leaf),hfound =>
    dsimp only at hfound
    rw [hstart,ok_bind] at hfound
    cases hfound
    cases ht
    exact ⟨hat,rfl⟩
  | none,hfound =>
    cases hfound
    cases ht
  | some (.node ..),hfound =>
    cases hfound
    cases ht
  | some (.list ..),hfound =>
    cases hfound
    cases ht

theorem nodeAt_in (h : node.green.Made) {m : SyntaxNode Kind} (hm : node.nodeAt i = .ok m) :
    InSlot node i m.green m.fullStart ∧ IsNode m.green := by
  rw [SyntaxNode.nodeAt] at hm
  obtain ⟨found,hfound,hm⟩ := bind_ok hm
  rw [SyntaxNode.nodeAtOrNull] at hfound
  obtain ⟨slot,hslot,hfound⟩ := bind_ok hfound
  have hat := slot_ok hslot
  have hstart := slotStart_ok h (List.getElem?_eq_some_iff.mp hat).1
  match slot,hfound with
  | some (.token leaf),hfound =>
    cases hfound
    cases hm
  | none,hfound =>
    cases hfound
    cases hm
  | some (.node ..),hfound =>
    dsimp only at hfound
    rw [hstart,ok_bind] at hfound
    cases hfound
    cases hm
    exact ⟨⟨hat,rfl⟩,fun leaf he => by cases he⟩
  | some (.list ..),hfound =>
    dsimp only at hfound
    rw [hstart,ok_bind] at hfound
    cases hfound
    cases hm
    exact ⟨⟨hat,rfl⟩,fun leaf he => by cases he⟩

def nodesFrom (node : SyntaxNode Kind) (offset : ℕ) : Slots Kind → List (SyntaxNode Kind)
  | [] => []
  | none :: slots => nodesFrom node offset slots
  | some (.token leaf) :: slots => nodesFrom node (offset + leaf.fullLength) slots
  | some child :: slots => .create child offset (some node) :: nodesFrom node (offset + child.fullLength) slots

theorem foldl_nodes (node : SyntaxNode Kind) (slots : Slots Kind) (result : List (SyntaxNode Kind)) (offset : ℕ) :
    (slots.foldl (fun (result,offset) slot =>
      match slot with
      | none => (result,offset)
      | some (.token leaf) => (result,offset + leaf.fullLength)
      | some child => (result ++ [SyntaxNode.create child offset (some node)],offset + child.fullLength)) (result,offset)).1 =
        result ++ nodesFrom node offset slots := by
  induction slots generalizing result offset with
  | nil => exact (List.append_nil result).symm
  | cons slot slots ih =>
    rw [List.foldl_cons]
    rcases slot with _ | (leaf | _ | _)
    · exact ih result offset
    · exact ih result _
    · refine (ih _ _).trans ?_
      rw [List.append_assoc]
      rfl
    · refine (ih _ _).trans ?_
      rw [List.append_assoc]
      rfl

theorem childNodes_eq (node : SyntaxNode Kind) : node.childNodes = nodesFrom node node.fullStart node.green.slots :=
  (foldl_nodes node _ [] _).trans (List.nil_append _)

theorem length_nodesFrom (node : SyntaxNode Kind) (slots : Slots Kind) (i offset : ℕ) :
    (nodesFrom node offset slots).length = (nodeSlotsFrom i slots).length := by
  induction slots generalizing i offset with
  | nil => rfl
  | cons slot slots ih =>
    match slot with
    | none => exact ih (i + 1) offset
    | some (.token leaf) => exact ih (i + 1) _
    | some (.node ..) => exact congrArg Nat.succ (ih (i + 1) _)
    | some (.list ..) => exact congrArg Nat.succ (ih (i + 1) _)

theorem nodesFrom_in {m : SyntaxNode Kind} {k j : ℕ} (slots : Slots Kind) (i offset : ℕ) (hm : (nodesFrom node offset slots)[k]? = some m)
    (hj : (nodeSlotsFrom i slots)[k]? = some j) : IsNode m.green ∧
      ∃ n, j = i + n ∧ slots[n]? = some (some m.green) ∧ m.fullStart = offset + Green.slotsWidth slots n := by
  induction slots generalizing i offset k with
  | nil => cases hm
  | cons slot slots ih =>
    have hnext : ∀ (width : ℕ), Green.width slot = width → (IsNode m.green ∧
        ∃ n, j = i + 1 + n ∧ slots[n]? = some (some m.green) ∧ m.fullStart = offset + width + Green.slotsWidth slots n) →
        IsNode m.green ∧ ∃ n, j = i + n ∧ (slot :: slots)[n]? = some (some m.green) ∧
          m.fullStart = offset + Green.slotsWidth (slot :: slots) n := by
      rintro _ rfl ⟨hnode,n,hn,hslot,hstart⟩
      exact ⟨hnode,n + 1,by omega,hslot,by rw [Green.slotsWidth_succ,hstart,Nat.add_assoc]⟩
    have hhere : ∀ child, IsNode child → slot = some child → m = .create child offset (some node) → j = i →
        IsNode m.green ∧ ∃ n, j = i + n ∧ (slot :: slots)[n]? = some (some m.green) ∧
          m.fullStart = offset + Green.slotsWidth (slot :: slots) n := by
      rintro child hchild rfl rfl rfl
      exact ⟨hchild,0,rfl,rfl,rfl⟩
    match slot with
    | none => exact hnext 0 rfl (ih (i + 1) offset hm hj)
    | some (.token leaf) => exact hnext _ rfl (ih (i + 1) _ hm hj)
    | some (.node kind inner fullLength) =>
      cases k with
      | zero => exact hhere _ (fun leaf he => by cases he) rfl (Option.some.inj hm).symm (Option.some.inj hj).symm
      | succ k => exact hnext _ rfl (ih (i + 1) _ hm hj)
    | some (.list inner offsets fullLength) =>
      cases k with
      | zero => exact hhere _ (fun leaf he => by cases he) rfl (Option.some.inj hm).symm (Option.some.inj hj).symm
      | succ k => exact hnext _ rfl (ih (i + 1) _ hm hj)

theorem childNodes_in {m : SyntaxNode Kind} {k j : ℕ} (hm : node.childNodes[k]? = some m) (hj : (nodeSlots node.green)[k]? = some j) :
    InSlot node j m.green m.fullStart ∧ IsNode m.green := by
  rw [childNodes_eq] at hm
  obtain ⟨hnode,n,hn,hslot,hstart⟩ := nodesFrom_in node.green.slots 0 node.fullStart hm hj
  rw [Nat.zero_add] at hn
  subst hn
  exact ⟨⟨hslot,hstart⟩,hnode⟩

/-! ### Chains of steps -/

inductive Element (Kind : Type)
  | node (node : SyntaxNode Kind)
  | token (token : SyntaxToken Kind)

namespace Element

def green : Element Kind → Green Kind
  | .node view => view.green
  | .token view => .token view.green

def fullStart : Element Kind → ℕ
  | .node view => view.fullStart
  | .token view => view.fullStart

def fullSpan : Element Kind → Span
  | .node view => view.fullSpan
  | .token view => view.fullSpan

end Element

/-- An element that steps from the root lead to, and the address of the slots they go through. The first token of a node is at the first
address that in-order walk of the node has, its last token at the last, and its child nodes are in the slots that hold nodes. -/
inductive Reached (root : SyntaxNode Kind) : List ℕ → Element Kind → Prop
  | root : Reached root [] (.node root)
  | tokenAt {path : List ℕ} {node : SyntaxNode Kind} {i : ℕ} {t : SyntaxToken Kind} : Reached root path (.node node) →
    node.tokenAt i = .ok t → Reached root (path ++ [i]) (.token t)
  | nodeAt {path : List ℕ} {node m : SyntaxNode Kind} {i : ℕ} : Reached root path (.node node) → node.nodeAt i = .ok m →
    Reached root (path ++ [i]) (.node m)
  | childNode {path : List ℕ} {node m : SyntaxNode Kind} {k i : ℕ} : Reached root path (.node node) → node.childNodes[k]? = some m →
    (nodeSlots node.green)[k]? = some i → Reached root (path ++ [i]) (.node m)
  | firstToken {path q : List ℕ} {node : SyntaxNode Kind} {t : SyntaxToken Kind} : Reached root path (.node node) →
    node.firstToken = some t → node.green.leaves.head? = some q → Reached root (path ++ q) (.token t)
  | lastToken {path q : List ℕ} {node : SyntaxNode Kind} {t : SyntaxToken Kind} : Reached root path (.node node) →
    node.lastToken = some t → node.green.leaves.getLast? = some q → Reached root (path ++ q) (.token t)

structure Placed (root : SyntaxNode Kind) (path : List ℕ) (e : Element Kind) : Prop where
  at_path : root.green.at? path = some e.green
  start : e.fullStart = root.fullStart + root.green.offsetAt path
  isNode : ∀ node, e = .node node → IsNode node.green

theorem at_append (g : Green Kind) (path rest : List ℕ) : g.at? (path ++ rest) = (g.at? path).bind fun e => e.at? rest := by
  induction path generalizing g with
  | nil => rfl
  | cons i path ih =>
    rw [List.cons_append,Green.at?,Green.at?]
    split
    · exact ih _
    · rfl

theorem offsetAt_append {e : Green Kind} (g : Green Kind) (path rest : List ℕ) (hat : g.at? path = some e) :
    g.offsetAt (path ++ rest) = g.offsetAt path + e.offsetAt rest := by
  induction path generalizing g with
  | nil =>
    cases hat
    exact (Nat.zero_add _).symm
  | cons i path ih =>
    rw [Green.at?] at hat
    rw [List.cons_append,Green.offsetAt,Green.offsetAt]
    split at hat
    case h_1 child hchild =>
      rw [ih child hat,Nat.add_assoc]
    case h_2 => cases hat

theorem Placed.token {root node : SyntaxNode Kind} {t : SyntaxToken Kind} (h : Placed root path (.node node))
    (ht : TokenAt node.green node.fullStart q t) : Placed root (path ++ q) (.token t) where
  at_path := by
    rw [at_append,h.at_path]
    exact ht.at_path
  start := by
    have hstart : node.fullStart = root.fullStart + root.green.offsetAt path := h.start
    rw [offsetAt_append _ _ _ h.at_path,← Nat.add_assoc,← hstart]
    exact ht.start
  isNode := fun _ he => by cases he

theorem Placed.inSlot {root node : SyntaxNode Kind} {e : Element Kind} (h : Placed root path (.node node))
    (he : InSlot node i e.green e.fullStart) (hnode : ∀ node, e = .node node → IsNode node.green) : Placed root (path ++ [i]) e where
  at_path := by
    rw [at_append,h.at_path]
    exact (show node.green.at? [i] = some e.green by rw [Green.at?,he.slot]; rfl)
  start := by
    have hstart : node.fullStart = root.fullStart + root.green.offsetAt path := h.start
    have hoffset : node.green.offsetAt [i] = Green.slotsWidth node.green.slots i := by
      rw [Green.offsetAt,he.slot]
      rfl
    rw [offsetAt_append _ _ _ h.at_path,← Nat.add_assoc,← hstart]
    exact he.start.trans (congrArg _ hoffset.symm)
  isNode := hnode

theorem Finds.found {A : Type} {found : Option A} {a : A} {P : List ℕ → A → Prop} (h : Finds found (some path) P) (ha : found = some a) : P path a := by
  obtain ⟨b,hb,hp⟩ := h
  cases ha.symm.trans hb
  exact hp

theorem Reached.placed {root : SyntaxNode Kind} {e : Element Kind} (hroot : IsNode root.green) (hmade : root.green.Made)
    (h : Reached root path e) : Placed root path e := by
  induction h with
  | root => exact ⟨rfl,rfl,fun node he => by cases he; exact hroot⟩
  | tokenAt hnode ht ih => exact ih.inSlot (e := .token _) (tokenAt_in (hmade.at ih.at_path) ht) fun _ he => by cases he
  | nodeAt hnode hm ih =>
    obtain ⟨hin,hisNode⟩ := nodeAt_in (hmade.at ih.at_path) hm
    exact ih.inSlot (e := .node _) hin fun _ he => by cases he; exact hisNode
  | childNode hnode hm hj ih =>
    obtain ⟨hin,hisNode⟩ := childNodes_in hm hj
    exact ih.inSlot (e := .node _) hin fun _ he => by cases he; exact hisNode
  | firstToken hnode ht hq ih =>
    have hfinds := firstToken_finds (ih.isNode _ rfl)
    rw [hq] at hfinds
    exact ih.token (hfinds.found ht)
  | lastToken hnode ht hq ih =>
    have hfinds := lastToken_finds (hmade.at ih.at_path) (ih.isNode _ rfl)
    rw [hq] at hfinds
    exact ih.token (hfinds.found ht)

def part (text : List ℕ) (start : ℕ) (span : Span) : List ℕ := (text.drop (span.start - start)).take span.length

theorem part_middle {before middle behind : List ℕ} {start : ℕ} :
    part (before ++ middle ++ behind) start ⟨start + before.length,middle.length⟩ = middle := by
  rw [part]
  dsimp only
  rw [Nat.add_sub_cancel_left,List.append_assoc,List.drop_left,List.take_left]

/-- For every tree and every element that steps from its root lead to: its full span names its text in the text of the root, a token's span
names the token's text without trivia, the first and the last token of a node are those of the in-order walk of the node, the child nodes
are one for each slot that holds a node, and whatever steps lead to the same slot, they lead to the same element at the same place. -/
theorem red_faithful {root : SyntaxNode Kind} {path : List ℕ} {e : Element Kind} (hroot : IsNode root.green) (hmade : root.green.Made)
    (h : Reached root path e) :
    part root.green.fullText root.fullStart e.fullSpan = e.green.fullText ∧
    (∀ t, e = .token t → part root.green.fullText root.fullStart t.span = t.green.text.bytes) ∧
    (∀ node, e = .node node → Finds node.firstToken node.green.leaves.head? (TokenAt node.green node.fullStart) ∧
      Finds node.lastToken node.green.leaves.getLast? (TokenAt node.green node.fullStart) ∧
      node.childNodes.length = (nodeSlots node.green).length) ∧
    ∀ e', Reached root path e' → e'.green = e.green ∧ e'.fullSpan = e.fullSpan := by
  have hplaced := h.placed hroot hmade
  have hmadeE := hmade.at hplaced.at_path
  obtain ⟨before,behind,htext,hlen⟩ := hmade.split hplaced.at_path
  have hspan : ∀ e' : Element Kind, Placed root path e' → e'.fullSpan = ⟨root.fullStart + before.length,e.green.fullLength⟩ := by
    intro e' hplaced'
    have hgreen : e'.green = e.green := Option.some.inj (hplaced'.at_path.symm.trans hplaced.at_path)
    rw [hlen,← hplaced'.start,← hgreen]
    cases e' <;> rfl
  refine ⟨?_,?_,?_,?_⟩
  · rw [hspan e hplaced,hmadeE.width_eq,htext,part_middle]
  · rintro t rfl
    have hstart := hplaced.start
    rw [← hlen] at hstart
    have hleading : t.green.leadingLength = (t.green.leading.flatMap fun trivia => trivia.text.bytes).length := (Green.length_trivia _).symm
    have hwhole : t.span = ⟨root.fullStart + (before ++ t.green.leading.flatMap fun trivia => trivia.text.bytes).length,t.green.text.bytes.length⟩ := by
      rw [SyntaxToken.span,hleading,List.length_append,← Nat.add_assoc]
      exact congrArg (fun start => Span.mk (start + _) _) hstart
    have hsplit : root.green.fullText = (before ++ t.green.leading.flatMap fun trivia => trivia.text.bytes) ++ t.green.text.bytes ++
        ((t.green.trailing.flatMap fun trivia => trivia.text.bytes) ++ behind) := by
      rw [htext,show (Element.token t).green.fullText = (Green.token t.green).fullText from rfl,Green.fullText_token]
      simp only [List.append_assoc]
    rw [hwhole,hsplit,part_middle]
  · rintro node rfl
    have hnode := hplaced.isNode node rfl
    refine ⟨firstToken_finds hnode,lastToken_finds hmadeE hnode,?_⟩
    rw [childNodes_eq]
    exact length_nodesFrom node node.green.slots 0 node.fullStart
  · intro e' he'
    have hplaced' := he'.placed hroot hmade
    exact ⟨Option.some.inj (hplaced'.at_path.symm.trans hplaced.at_path),by rw [hspan e' hplaced',hspan e hplaced]⟩

def sparse : Green Unit := .newNode () [none,some (.token (.new () Text.empty [] []))]

def missing : Element Unit := .token ⟨.new () Text.empty [] [],0,some (createRoot sparse)⟩

theorem red_faithful_sparse : part sparse.fullText 0 missing.fullSpan = missing.green.fullText ∧
    (∀ t, missing = .token t → part sparse.fullText 0 t.span = t.green.text.bytes) ∧
    (∀ node, missing = .node node → Finds node.firstToken node.green.leaves.head? (TokenAt node.green node.fullStart) ∧
      Finds node.lastToken node.green.leaves.getLast? (TokenAt node.green node.fullStart) ∧
      node.childNodes.length = (nodeSlots node.green).length) ∧
    ∀ e', Reached (createRoot sparse) [1] e' → e'.green = missing.green ∧ e'.fullSpan = missing.fullSpan := by
  have hmade : (createRoot sparse).green.Made := .node () _ fun child hchild => by
    simp only [List.mem_cons,List.not_mem_nil,or_false,reduceCtorEq,Option.some.injEq,false_or] at hchild
    rw [hchild]
    exact .token () Text.empty [] []
  have htoken : (createRoot sparse).tokenAt 1 = .ok ⟨.new () Text.empty [] [],0,some (createRoot sparse)⟩ := rfl
  have hroot : IsNode (createRoot sparse).green := fun leaf he => by cases he
  have hreached : Reached (createRoot sparse) [1] missing := .tokenAt .root htoken
  exact red_faithful hroot hmade hreached

end Ens.Syntax
