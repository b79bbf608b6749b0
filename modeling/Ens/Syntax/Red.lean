import Ens.Logic.Loop
import Ens.Text.Text

/-! # The green tree

The immutable layer of the syntax tree: texts and widths, no positions. An element keeps its width from when it was made, and a list keeps
where each of its slots starts.
-/
namespace Ens.Syntax
variable {Kind : Type}

structure GreenTrivia (Kind : Type) where
  kind : Kind
  text : Text

def triviaWidth (list : List (GreenTrivia Kind)) : ℕ := list.foldl (fun total trivia => total + trivia.text.length) 0

structure GreenToken (Kind : Type) where
  kind : Kind
  text : Text
  leading : List (GreenTrivia Kind)
  trailing : List (GreenTrivia Kind)
  fullLength : ℕ

namespace GreenToken

def new (kind : Kind) (text : Text) (leading trailing : List (GreenTrivia Kind)) : GreenToken Kind :=
  ⟨kind,text,leading,trailing,triviaWidth leading + text.length + triviaWidth trailing⟩

def contentLength (token : GreenToken Kind) : ℕ := token.text.length

def leadingLength (token : GreenToken Kind) : ℕ := triviaWidth token.leading

def writeTo (token : GreenToken Kind) (builder : List ℕ) : List ℕ :=
  token.trailing.foldl (fun builder trivia => builder ++ trivia.text.bytes)
    (token.leading.foldl (fun builder trivia => builder ++ trivia.text.bytes) builder ++ token.text.bytes)

end GreenToken

/-- A token, a node, or a list, which is a node that keeps where its slots start. An absent slot is `none`. -/
inductive Green (Kind : Type)
  | token (token : GreenToken Kind)
  | node (kind : Kind) (slots : List (Option (Green Kind))) (fullLength : ℕ)
  | list (slots : List (Option (Green Kind))) (offsets : List ℕ) (fullLength : ℕ)

abbrev Slots (Kind : Type) := List (Option (Green Kind))

namespace Green

def fullLength : Green Kind → ℕ
  | token leaf => leaf.fullLength
  | node _ _ fullLength => fullLength
  | list _ _ fullLength => fullLength

def slots : Green Kind → Slots Kind
  | token _ => []
  | node _ slots _ => slots
  | list slots _ _ => slots

def width (slot : Option (Green Kind)) : ℕ :=
  match slot with
  | none => 0
  | some child => child.fullLength

def slotsWidth (slots : Slots Kind) (count : ℕ) : ℕ := (slots.take count).foldl (fun total slot => total + width slot) 0

def slotOffsetsOf (slots : Slots Kind) : List ℕ :=
  (slots.foldl (fun (offsets,total) slot => (offsets ++ [total],total + width slot)) (([],0) : List ℕ × ℕ)).1

def newNode (kind : Kind) (slots : Slots Kind) : Green Kind := node kind slots (slotsWidth slots slots.length)

def newList (slots : Slots Kind) : Green Kind := list slots (slotOffsetsOf slots) (slotsWidth slots slots.length)

def slotOffset (green : Green Kind) (index : ℕ) : Except Stop ℕ :=
  match green with
  | list _ offsets _ =>
    match offsets[index]? with
    | some offset => .ok offset
    | none => .error .abort
  | _ => .ok (slotsWidth green.slots index)

mutual

def writeTo : Green Kind → List ℕ → List ℕ
  | token leaf, builder => leaf.writeTo builder
  | node _ slots _, builder => writeSlots slots builder
  | list slots _ _, builder => writeSlots slots builder

def writeSlots : List (Option (Green Kind)) → List ℕ → List ℕ
  | [], builder => builder
  | slot :: slots, builder => writeSlots slots (writeSlot slot builder)

def writeSlot : Option (Green Kind) → List ℕ → List ℕ
  | none, builder => builder
  | some child, builder => child.writeTo builder

end

def fullText (green : Green Kind) : List ℕ := green.writeTo []

inductive Made : Green Kind → Prop
  | token (kind : Kind) (text : Text) (leading trailing : List (GreenTrivia Kind)) : Made (.token (.new kind text leading trailing))
  | node (kind : Kind) (slots : Slots Kind) : (∀ child, some child ∈ slots → Made child) → Made (newNode kind slots)
  | list (slots : Slots Kind) : (∀ child, some child ∈ slots → Made child) → Made (newList slots)

end Green

end Ens.Syntax

/-! ## The red tree

Views of green elements that know where they start and what they are in. They are made on demand: nothing but the start is kept.
-/
namespace Ens.Syntax
open Loop
variable {Kind : Type}

structure Span where
  start : ℕ
  length : ℕ
deriving DecidableEq

def Span.stop (span : Span) : ℕ := span.start + span.length

/-- A view of a green node or list. The classes of nodes differ in the slots they name, and a factory makes any of them alike. -/
inductive SyntaxNode (Kind : Type)
  | create (green : Green Kind) (fullStart : ℕ) (parent : Option (SyntaxNode Kind))

namespace SyntaxNode

def green : SyntaxNode Kind → Green Kind
  | create green _ _ => green

def fullStart : SyntaxNode Kind → ℕ
  | create _ fullStart _ => fullStart

def parent : SyntaxNode Kind → Option (SyntaxNode Kind)
  | create _ _ parent => parent

def fullSpan (node : SyntaxNode Kind) : Span := ⟨node.fullStart,node.green.fullLength⟩

end SyntaxNode

structure SyntaxToken (Kind : Type) where
  green : GreenToken Kind
  fullStart : ℕ
  parent : Option (SyntaxNode Kind)

namespace SyntaxToken

def span (token : SyntaxToken Kind) : Span := ⟨token.fullStart + token.green.leadingLength,token.green.contentLength⟩

def fullSpan (token : SyntaxToken Kind) : Span := ⟨token.fullStart,token.green.fullLength⟩

end SyntaxToken

/-! ### The first and the last token -/

mutual

/-- The first token of a view of an element: a token is its own, and a node's is the first one its slots have. -/
def firstOf : Green Kind → ℕ → Option (SyntaxNode Kind) → Option (SyntaxToken Kind)
  | .token leaf, offset, parent => some ⟨leaf,offset,parent⟩
  | .node kind slots fullLength, offset, parent => firstIn slots offset (.create (.node kind slots fullLength) offset parent)
  | .list slots offsets fullLength, offset, parent => firstIn slots offset (.create (.list slots offsets fullLength) offset parent)

def firstIn : List (Option (Green Kind)) → ℕ → SyntaxNode Kind → Option (SyntaxToken Kind)
  | [], _, _ => none
  | slot :: slots, offset, node =>
    match firstAt slot offset node with
    | some token => some token
    | none => firstIn slots (offset + Green.width slot) node

def firstAt : Option (Green Kind) → ℕ → SyntaxNode Kind → Option (SyntaxToken Kind)
  | none, _, _ => none
  | some child, offset, node => firstOf child offset (some node)

end

mutual

/-- The last token of a view of an element: a node's is the last one its slots have, counted back from its end. -/
def lastOf : Green Kind → ℕ → Option (SyntaxNode Kind) → Option (SyntaxToken Kind)
  | .token leaf, offset, parent => some ⟨leaf,offset,parent⟩
  | .node kind slots fullLength, offset, parent =>
    (lastIn slots (offset + fullLength) (.create (.node kind slots fullLength) offset parent)).getLeft?
  | .list slots offsets fullLength, offset, parent =>
    (lastIn slots (offset + fullLength) (.create (.list slots offsets fullLength) offset parent)).getLeft?

-- the loop goes from the last slot to the first: what it has found in the slots behind one, or where it stands before them
def lastIn : List (Option (Green Kind)) → ℕ → SyntaxNode Kind → SyntaxToken Kind ⊕ ℕ
  | [], offset, _ => .inr offset
  | slot :: slots, offset, node =>
    match lastIn slots offset node with
    | .inl token => .inl token
    | .inr offset =>
      match lastAt slot (offset - Green.width slot) node with
      | some token => .inl token
      | none => .inr (offset - Green.width slot)

def lastAt : Option (Green Kind) → ℕ → SyntaxNode Kind → Option (SyntaxToken Kind)
  | none, _, _ => none
  | some child, offset, node => lastOf child offset (some node)

end

namespace SyntaxNode

def firstToken (node : SyntaxNode Kind) : Option (SyntaxToken Kind) := firstIn node.green.slots node.fullStart node

def lastToken (node : SyntaxNode Kind) : Option (SyntaxToken Kind) :=
  (lastIn node.green.slots (node.fullStart + node.green.fullLength) node).getLeft?

/-- From the start of the first token's text to the end of the last one's; a node without tokens has a span of no length at its start. -/
def span (node : SyntaxNode Kind) : Span :=
  match node.firstToken, node.lastToken with
  | some first, some last => ⟨first.span.start,last.span.stop - first.span.start⟩
  | _, _ => ⟨node.fullStart,0⟩

/-! ### Slots -/

def childNodes (node : SyntaxNode Kind) : List (SyntaxNode Kind) :=
  (node.green.slots.foldl (fun (result,offset) slot =>
    match slot with
    | none => (result,offset)
    | some (.token leaf) => (result,offset + leaf.fullLength)
    | some child => (result ++ [create child offset (some node)],offset + child.fullLength))
    (([],node.fullStart) : List (SyntaxNode Kind) × ℕ)).1

def slot (node : SyntaxNode Kind) (index : ℕ) : Except Stop (Option (Green Kind)) :=
  match node.green.slots[index]? with
  | some slot => .ok slot
  | none => .error .abort

def slotStart (node : SyntaxNode Kind) (index : ℕ) : Except Stop ℕ := do .ok (node.fullStart + (← node.green.slotOffset index))

def tokenAtOrNull (node : SyntaxNode Kind) (index : ℕ) : Except Stop (Option (SyntaxToken Kind)) := do
  match ← node.slot index with
  | some (.token leaf) => .ok (some ⟨leaf,← node.slotStart index,some node⟩)
  | _ => .ok none

def tokenAt (node : SyntaxNode Kind) (index : ℕ) : Except Stop (SyntaxToken Kind) := do
  match ← node.tokenAtOrNull index with
  | some token => .ok token
  | none => .error .abort

def nodeAtOrNull (node : SyntaxNode Kind) (index : ℕ) : Except Stop (Option (SyntaxNode Kind)) := do
  match ← node.slot index with
  | none | some (.token _) => .ok none
  | some child => .ok (some (create child (← node.slotStart index) (some node)))

def nodeAt (node : SyntaxNode Kind) (index : ℕ) : Except Stop (SyntaxNode Kind) := do
  match ← node.nodeAtOrNull index with
  | some node => .ok node
  | none => .error .abort

end SyntaxNode

def createRoot (green : Green Kind) : SyntaxNode Kind := .create green 0 none

end Ens.Syntax
