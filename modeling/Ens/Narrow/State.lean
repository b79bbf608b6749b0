import Ens.Logic.Entries
import Mathlib.Logic.Function.Iterate

/-! # What a body has proven

The proven types of storage paths, one layer for each branch of control flow. Only the layers that have held something
are read. While the branches of a statement are analyzed a journal keeps what they replace in the layers where they
start, so that it can be put back. Bindings, fields, types and the writes recorded are parameters.
-/
namespace Ens.Narrow
open Entries

/-! ### Paths -/

inductive Root (B F : Type)
  | binding (b : B)
  | typeLevel (f : F)
  deriving DecidableEq, Repr

structure NarrowingPath (B F : Type) where
  root : Root B F
  segments : List (List ℕ)
  deriving DecidableEq, Repr

section
variable {B F : Type} [DecidableEq B] [DecidableEq F]

def NarrowingPath.rootedAt (path : NarrowingPath B F) (root : B) : Bool := path.root = .binding root

def startsWith (path pre : NarrowingPath B F) : Bool := path.root = pre.root && pre.segments.isPrefixOf path.segments

end

/-! ### Layers -/

variable {P T E : Type} [DecidableEq P]

structure Layer (P T E : Type) where
  proofs : List (P × T) := []
  ends : List (P × E) := []
  writes : List (P × E) := []
  deriving DecidableEq

structure Held (T E : Type) where
  proof : Option T := none
  ended : Option E := none
  write : Option E := none
  deriving DecidableEq

def Layer.held (l : Layer P T E) (path : P) : Held T E := ⟨lookup l.proofs path,lookup l.ends path,lookup l.writes path⟩

def Layer.isEmpty (l : Layer P T E) : Bool := l.proofs.isEmpty && l.ends.isEmpty && l.writes.isEmpty

abbrev LayerEntry (P T E : Type) := (ℕ × P) × Held T E

structure Journal (P T E : Type) where
  depth : ℕ
  replaced : List (LayerEntry P T E) := []

/-- The layers are outermost first, the indices of those that have held something innermost first, and the journals
innermost first. -/
structure State (P T E : Type) where
  layers : List (Layer P T E)
  filled : List ℕ := []
  journals : List (Journal P T E) := []

namespace State

def new : State P T E where
  layers := [{}]

def ofProven (proven : List (P × T)) : State P T E where
  layers := [{ proofs := proven }]
  filled := [0]

def copy (s : State P T E) : State P T E := { s with journals := [] }

def snapshotLayers (s : State P T E) : List (Layer P T E) := s.layers

def restoreLayers (s : State P T E) (snapshot : List (Layer P T E)) : State P T E :=
  { s with
    layers := snapshot
    filled := ((List.range snapshot.length).filter fun i => !(snapshot.getD i {}).isEmpty).reverse }

def layer (s : State P T E) (i : ℕ) : Layer P T E := s.layers.getD i {}

def top (s : State P T E) : ℕ := s.layers.length - 1

def modify (s : State P T E) (i : ℕ) (f : Layer P T E → Layer P T E) : State P T E := { s with layers := s.layers.modify i f }

/-- Records what a layer holds for a path, where the branches of the innermost statement start within that layer. -/
def record (s : State P T E) (i : ℕ) (path : P) : State P T E :=
  match s.journals with
  | [] => s
  | j :: js =>
    if i ≥ j.depth then s
    else { s with journals := { j with replaced := ((i,path),(s.layer i).held path) :: j.replaced } :: js }

def fillIndex (index : ℕ) : List ℕ → List ℕ
  | [] => [index]
  | f :: rest => if f ≥ index then if f = index then f :: rest else f :: fillIndex index rest else index :: f :: rest

def fill (s : State P T E) (index : ℕ) : State P T E := { s with filled := fillIndex index s.filled }

def push (s : State P T E) : State P T E := { s with layers := s.layers ++ [{}] }

def popLayer (s : State P T E) : State P T E :=
  { s with
    layers := s.layers.dropLast
    filled := if s.filled.head? = some s.top then s.filled.tail else s.filled }

def pop (s : State P T E) : State P T E := if s.layers.length > 1 then s.popLayer else s

/-! ### What holds -/

def provenType (s : State P T E) (path : P) : Option T := s.filled.findSome? fun i => ((s.layer i).held path).proof

def endOf (s : State P T E) (path : P) : Option E :=
  (s.filled.findSome? fun i =>
    match (s.layer i).held path with
    | ⟨some _,_,_⟩ => some none
    | ⟨none,ended,_⟩ => ended.map some).join

def writeOf (s : State P T E) (path : P) : Option E :=
  (s.filled.findSome? fun i =>
    match (s.layer i).held path with
    | ⟨_,_,some write⟩ => some (some write)
    | ⟨proof,_,none⟩ => proof.map fun _ => none).join

/-! ### Establishing and erasing -/

def narrow (s : State P T E) (path : P) (proven : T) : State P T E :=
  ((s.record s.top path).fill s.top).modify s.top fun l =>
    ⟨insert l.proofs path proven,erase l.ends path,erase l.writes path⟩

def noteWrite (s : State P T E) (path : P) (write : E) : State P T E :=
  ((s.record s.top path).fill s.top).modify s.top fun l => { l with writes := insert l.writes path write }

def setEnd (s : State P T E) (i : ℕ) (path : P) (ended : E) : State P T E :=
  (s.record i path).modify i fun l => { l with ends := insert l.ends path ended }

def clearLayer (cleared : P → Bool) (ended : E) (s : State P T E) (i : ℕ) : State P T E :=
  if (s.layer i).proofs.isEmpty then s
  else
    (((s.layer i).proofs.map Prod.fst).foldl (fun s key => if cleared key then s.setEnd i key ended else s) s).modify i fun l =>
      { l with proofs := l.proofs.filter fun e => !cleared e.1, writes := l.writes.filter fun e => !cleared e.1 }

def clearWhere (s : State P T E) (cleared : P → Bool) (ended : E) : State P T E :=
  s.filled.reverse.foldl (clearLayer cleared ended) s

def renewLayer (renewed : P → Bool) (ended : E) (s : State P T E) (i : ℕ) : State P T E :=
  ((s.layer i).ends.map Prod.fst).foldl
    (fun s key => if renewed key && (s.provenType key).isNone then s.setEnd i key ended else s) s

/-- Replaces the earlier write each layer records as what ended a path that is accepted and holds no proof. -/
def renewWhere (s : State P T E) (renewed : P → Bool) (ended : E) : State P T E :=
  s.filled.reverse.foldl (renewLayer renewed ended) s

def endProof (s : State P T E) (path : P) (ended : E) : State P T E :=
  let s := (s.clearWhere (fun key => key = path) ended).renewWhere (fun key => key = path) ended
  if (s.endOf path).isNone then ((s.record s.top path).fill s.top).modify s.top fun l => { l with ends := insert l.ends path ended }
  else s

def clearPathIn (path : P) (s : State P T E) (i : ℕ) : State P T E :=
  if (lookup (s.layer i).proofs path).isSome || (lookup (s.layer i).writes path).isSome then
    (s.record i path).modify i fun l => { l with proofs := erase l.proofs path, writes := erase l.writes path }
  else s

def clearPath (s : State P T E) (path : P) : State P T E := s.filled.reverse.foldl (clearPathIn path) s

section
variable {B F : Type} [DecidableEq B] [DecidableEq F]

def clearForRoot (s : State (NarrowingPath B F) T E) (root : B) (ended : E) := s.clearWhere (fun key => key.rootedAt root) ended

def clearPrefixedBy (s : State (NarrowingPath B F) T E) (written : NarrowingPath B F) (ended : E) :=
  s.clearWhere (fun key => startsWith key written) ended

def renewForRoot (s : State (NarrowingPath B F) T E) (root : B) (ended : E) := s.renewWhere (fun key => key.rootedAt root) ended

def renewPrefixedBy (s : State (NarrowingPath B F) T E) (written : NarrowingPath B F) (ended : E) :=
  s.renewWhere (fun key => startsWith key written) ended

end

/-! ### Branches -/

def startBranches (s : State P T E) : State P T E := { s with journals := ⟨s.layers.length,[]⟩ :: s.journals }

def put {V : Type} (m : List (P × V)) (path : P) : Option V → List (P × V)
  | none => erase m path
  | some v => insert (erase m path) path v

def restore (s : State P T E) (e : LayerEntry P T E) : State P T E :=
  (s.fill e.1.1).modify e.1.1 fun l =>
    ⟨put l.proofs e.1.2 e.2.proof,put l.ends e.1.2 e.2.ended,put l.writes e.1.2 e.2.write⟩

/-- Puts back what held where the branches of the innermost statement started. There is none where no branches are
analyzed, or where a layer that is to be changed is gone. -/
def restartBranches (s : State P T E) : Option (State P T E) :=
  match s.journals with
  | [] => none
  | j :: js =>
    let s := popLayer^[s.layers.length - j.depth] s
    if j.replaced.all fun e => e.1.1 < s.layers.length then
      some { j.replaced.foldl restore s with journals := { j with replaced := [] } :: js }
    else none

def endBranches (s : State P T E) : Option (State P T E) :=
  s.restartBranches.map fun s => { s with journals := s.journals.tail }

def changedPlaces (s : State P T E) : List P :=
  match s.journals with
  | [] => []
  | j :: _ =>
    j.replaced.map (fun e => e.1.2) ++ (s.filled.takeWhile fun i => i ≥ j.depth).flatMap fun i =>
      (s.layer i).proofs.map Prod.fst ++ (s.layer i).ends.map Prod.fst ++ (s.layer i).writes.map Prod.fst

end State
end Ens.Narrow
