import Ens.Logic.Assoc
import Ens.Logic.Loop
import Ens.Text.Text

/-! # A map in the order its keys sort

The entries are the nodes of a tree that keeps its height in every node. An insertion and a
removal rotate on the way back up where the heights of the two subtrees of a node have come two
apart.
-/
namespace Ens.Collections
open Loop
variable {K V : Type}

/-- A subtree, `nil` where the source has none. -/
inductive Tree (K V : Type)
  | nil
  | node (left : Tree K V) (key : K) (value : V) (right : Tree K V) (height : ℕ)
  deriving Repr

namespace Tree

def heightOf : Tree K V → ℕ
  | nil => 0
  | node _ _ _ _ height => height

def updateHeight (left : Tree K V) (key : K) (value : V) (right : Tree K V) : Tree K V :=
  node left key value right (1 + if heightOf right < heightOf left then heightOf left else heightOf right)

def rotatedLeft (left : Tree K V) (key : K) (value : V) (pivotLeft : Tree K V) (pivotKey : K) (pivotValue : V)
    (pivotRight : Tree K V) : Tree K V :=
  updateHeight (updateHeight left key value pivotLeft) pivotKey pivotValue pivotRight

def rotatedRight (pivotLeft : Tree K V) (pivotKey : K) (pivotValue : V) (pivotRight : Tree K V) (key : K) (value : V)
    (right : Tree K V) : Tree K V :=
  updateHeight pivotLeft pivotKey pivotValue (updateHeight pivotRight key value right)

/-- A node rotated right to bring its taller left subtree up, which is rotated left first when it
leans right. -/
def rotatedRightAt (left : Tree K V) (key : K) (value : V) (right : Tree K V) (height : ℕ) : Tree K V :=
  match left with
  | nil => node left key value right height
  | node pl pk pv pr _ =>
    match pr with
    | nil => rotatedRight pl pk pv pr key value right
    | node ql qk qv qr _ =>
      if heightOf pl < heightOf pr then
        match rotatedLeft pl pk pv ql qk qv qr with
        | nil => node left key value right height
        | node l k v r _ => rotatedRight l k v r key value right
      else rotatedRight pl pk pv pr key value right

/-- A node rotated left to bring its taller right subtree up, which is rotated right first when it
leans left. -/
def rotatedLeftAt (left : Tree K V) (key : K) (value : V) (right : Tree K V) (height : ℕ) : Tree K V :=
  match right with
  | nil => node left key value right height
  | node pl pk pv pr _ =>
    match pl with
    | nil => rotatedLeft left key value pl pk pv pr
    | node ql qk qv qr _ =>
      if heightOf pr < heightOf pl then
        match rotatedRight ql qk qv qr pk pv pr with
        | nil => node left key value right height
        | node l k v r _ => rotatedLeft left key value l k v r
      else rotatedLeft left key value pl pk pv pr

/-- A node with its height brought up to date, rotated first when its subtrees' heights differ by
two. -/
def rebalanced (left : Tree K V) (key : K) (value : V) (right : Tree K V) (height : ℕ) : Tree K V :=
  if heightOf right + 1 < heightOf left then rotatedRightAt left key value right height
  else if heightOf left + 1 < heightOf right then rotatedLeftAt left key value right height
  else updateHeight left key value right

def leftmost : Tree K V → K → V → K × V
  | nil,key,value => (key,value)
  | node left key value _ _,_,_ => leftmost left key value

def rightmost : K → V → Tree K V → K × V
  | key,value,nil => (key,value)
  | _,_,node _ key value right _ => rightmost key value right

def withoutLeftmost : Tree K V → K → V → Tree K V → ℕ → Tree K V
  | nil,_,_,right,_ => right
  | node l k v r h,key,value,right,height => rebalanced (withoutLeftmost l k v r h) key value right height

def findNode (order : K → K → ℤ) (key : K) : Tree K V → Option (K × V)
  | nil => none
  | node left k v right _ =>
    if order key k = 0 then some (k,v)
    else if order key k < 0 then findNode order key left
    else findNode order key right

structure Tally where
  count : ℤ
  changes : ℕ
  deriving DecidableEq, Repr

/-- The subtree with a value stored under a key: a node added when the key is new, the value
overwritten when it is not. -/
def inserted (order : K → K → ℤ) (key : K) (value : V) (tally : Tally) : Tree K V → Tree K V × Tally
  | nil => (node nil key value nil 1,⟨tally.count + 1,tally.changes + 1⟩)
  | node left k v right height =>
    if order key k = 0 then (node left k value right height,tally)
    else if order key k < 0 then
      let (left,tally) := inserted order key value tally left
      (rebalanced left k v right height,tally)
    else
      let (right,tally) := inserted order key value tally right
      (rebalanced left k v right height,tally)

/-- The subtree without the entry under a key. A node with two children takes over the entry of
the next key after its own. -/
def without (order : K → K → ℤ) (key : K) (tally : Tally) : Tree K V → Tree K V × Tally
  | nil => (nil,tally)
  | node left k v right height =>
    if order key k < 0 then
      let (left,tally) := without order key tally left
      (rebalanced left k v right height,tally)
    else if 0 < order key k then
      let (right,tally) := without order key tally right
      (rebalanced left k v right height,tally)
    else
      let tally : Tally := ⟨tally.count - 1,tally.changes + 1⟩
      match left,right with
      | nil,right => (right,tally)
      | left,nil => (left,tally)
      | left,node rl rk rv rr rh =>
        let successor := leftmost rl rk rv
        (rebalanced left successor.1 successor.2 (withoutLeftmost rl rk rv rr rh) height,tally)

def treeOf (nodes : List (K × V)) (low high : ℤ) : Except Stop (Tree K V) :=
  if high < low then .ok nil
  else
    let middle := (low + high) / 2
    match nodes[middle.toNat]? with
    | none => .error .abort
    | some n => do
      let left ← treeOf nodes low (middle - 1)
      let right ← treeOf nodes (middle + 1) high
      .ok (updateHeight left n.1 n.2 right)
termination_by (high + 1 - low).toNat

def copyOf : Tree K V → Tree K V
  | nil => nil
  | node left key value right height => node (copyOf left) key value (copyOf right) height

end Tree

structure SortedMap (K V : Type) where
  root : Tree K V := .nil
  count : ℤ := 0
  changes : ℕ := 0
  order : K → K → ℤ

namespace SortedMap

def length (m : SortedMap K V) : ℤ := m.count

def isEmpty (m : SortedMap K V) : Bool := decide (m.count = 0)

def get (m : SortedMap K V) (key : K) : Option V := (m.root.findNode m.order key).map Prod.snd

def contains (m : SortedMap K V) (key : K) : Bool := (m.root.findNode m.order key).isSome

def withTree (m : SortedMap K V) (r : Tree K V × Tree.Tally) : SortedMap K V :=
  { m with root := r.1, count := r.2.count, changes := r.2.changes }

def set (m : SortedMap K V) (key : K) (value : V) : SortedMap K V :=
  m.withTree (m.root.inserted m.order key value ⟨m.count,m.changes⟩)

def remove (m : SortedMap K V) (key : K) : SortedMap K V × Bool :=
  let removed := m.withTree (m.root.without m.order key ⟨m.count,m.changes⟩)
  (removed,decide (removed.count < m.count))

def clear (m : SortedMap K V) : SortedMap K V :=
  if m.count = 0 then m else { m with root := .nil, count := 0, changes := m.changes + 1 }

def getOrInsert (m : SortedMap K V) (key : K) (make : Unit → V) : SortedMap K V × V :=
  match m.root.findNode m.order key with
  | some node => (m,node.2)
  | none =>
    let made := make ()
    (m.set key made,made)

def firstKey (m : SortedMap K V) : Except Stop K :=
  match m.root with
  | .nil => .error .abort
  | .node left key value _ _ => .ok (Tree.leftmost left key value).1

def lastKey (m : SortedMap K V) : Except Stop K :=
  match m.root with
  | .nil => .error .abort
  | .node _ key value right _ => .ok (Tree.rightmost key value right).1

def copy (m : SortedMap K V) : SortedMap K V :=
  { root := m.root.copyOf, count := m.count, changes := 0, order := m.order }

/-! ### Walks -/

/-- A walk in key order: the nodes on the path down to the next one, the next one first. Of each
its entry and its right subtree are left to walk. -/
structure NodeWalk (K V : Type) where
  changesAtStart : ℕ
  pending : List ((K × V) × Tree K V)

def descend : Tree K V → List ((K × V) × Tree K V) → List ((K × V) × Tree K V)
  | .nil,pending => pending
  | .node left key value right _,pending => descend left (((key,value),right) :: pending)

def nodeWalk (m : SortedMap K V) : NodeWalk K V := ⟨m.changes,descend m.root []⟩

def nextNode (m : SortedMap K V) (walk : NodeWalk K V) : Except Stop (Option (K × V) × NodeWalk K V) :=
  if m.changes ≠ walk.changesAtStart then .error .abort
  else
    match walk.pending with
    | [] => .ok (none,walk)
    | (entry,right) :: pending => .ok (some entry,{ walk with pending := descend right pending })

def rounds : Tree K V → ℕ
  | .nil => 1
  | .node left _ _ right _ => rounds left + rounds right + 1

def walkRound {A : Type} (m : SortedMap K V) (visit : A → K × V → A) :
    NodeWalk K V × A → Except Stop (Flow (NodeWalk K V × A) A)
  | (walk,seen) => do
    let (entry,walk) ← m.nextNode walk
    match entry with
    | none => .ok (.done seen)
    | some entry => .ok (.next (walk,visit seen entry))

def walked {A : Type} (m : SortedMap K V) (visit : A → K × V → A) (start : A) : Except Stop A :=
  loop .endless (m.walkRound visit) (rounds m.root) (m.nodeWalk,start)

def entries (m : SortedMap K V) : Except Stop (List (K × V)) := m.walked (fun seen entry => seen ++ [entry]) []

def removeWhere (m : SortedMap K V) (test : K → V → Bool) : Except Stop (SortedMap K V × ℤ) := do
  let kept ← m.walked (fun kept entry => if test entry.1 entry.2 then kept else kept ++ [entry]) []
  let removed := m.count - kept.length
  if 0 < removed then do
    let root ← Tree.treeOf kept 0 (kept.length - 1)
    .ok ({ m with root := root, count := kept.length, changes := m.changes + 1 },removed)
  else .ok (m,removed)

end SortedMap
end Ens.Collections
