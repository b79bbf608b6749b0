import Ens.Logic.Components
import Ens.Logic.Loop
import Mathlib.Algebra.BigOperators.Group.Finset.Basic
import Mathlib.Data.Finset.Range
import Mathlib.Data.List.Basic

/-! # Groups of mutually recursive functions

A depth-first search over the calls. A function that is entered is put on a stack, and leaves it with its group when nothing it calls
leads further back.
-/
namespace Ens.Inlining
open Loop

structure CallGraph where
  callees : List (List ℕ)
  valid : ∀ edges ∈ callees, ∀ callee ∈ edges, callee < callees.length

inductive Stop
  | abort | endless

/-- A search under way. The stack and the path have their last entries first, and a function on the path comes with the next of its calls
to follow. -/
structure Search where
  order : ℕ → ℤ
  low : ℕ → ℤ
  onStack : ℕ → Bool
  stack : List ℕ
  groups : List (List ℕ)
  visited : ℤ
  path : List (ℕ × ℕ)

def start : Search := ⟨fun _ => -1,fun _ => 0,fun _ => false,[],[],0,[]⟩

def put {A : Type} (xs : ℕ → A) (i : ℕ) (x : A) : ℕ → A := fun k => if k = i then x else xs k

def Search.enter (s : Search) (v : ℕ) : Search :=
  { s with
    order := put s.order v s.visited
    low := put s.low v s.visited
    visited := s.visited + 1
    stack := v :: s.stack
    onStack := put s.onStack v true
    path := (v,0) :: s.path }

def popGroup (node : ℕ) : List ℕ → List ℕ → Except Stop (List ℕ × List ℕ)
  | [], _ => .error .abort
  | member :: stack, group => if member = node then .ok (group ++ [member],stack) else popGroup node stack (group ++ [member])

def Search.close (s : Search) (node : ℕ) : Except Stop Search :=
  if s.low node = s.order node then
    (popGroup node s.stack []).map fun (group,stack) =>
      { s with stack := stack, onStack := fun k => if k ∈ group then false else s.onStack k, groups := s.groups ++ [group] }
  else .ok s

def Search.back (s : Search) (node : ℕ) (path : List (ℕ × ℕ)) : Search :=
  match path with
  | [] => { s with path := [] }
  | (parent,edge) :: path =>
    { s with path := (parent,edge) :: path, low := if s.low node < s.low parent then put s.low parent (s.low node) else s.low }

def step (g : CallGraph) (s : Search) : Except Stop (Flow Search Search) :=
  match s.path with
  | [] => .ok (.done s)
  | (node,edge) :: path =>
    match g.callees[node]? with
    | none => .error .abort
    | some edges =>
      match edges[edge]? with
      | some callee =>
        let s := { s with path := (node,edge + 1) :: path }
        .ok (.next (if s.order callee < 0 then s.enter callee
          else if s.onStack callee ∧ s.order callee < s.low node then { s with low := put s.low node (s.order callee) }
          else s))
      | none => (s.close node).map fun s => .next (s.back node path)

def CallGraph.degree (g : CallGraph) (v : ℕ) : ℕ := (g.callees[v]?.getD []).length

/-- No search goes on for longer than it takes to follow each call once and to leave each function once. -/
def CallGraph.size (g : CallGraph) : ℕ := ∑ v ∈ Finset.range g.callees.length, (g.degree v + 1)

def searchFrom (g : CallGraph) (s : Search) (root : ℕ) : Except Stop Search :=
  if 0 ≤ s.order root then .ok s else loop .endless (step g) (g.size + 1) ({ s with path := [] }.enter root)

def componentsOf (g : CallGraph) : Except Stop (List (List ℕ)) :=
  ((List.range g.callees.length).foldlM (searchFrom g) start).map Search.groups

/-- A function calls another. -/
def CallGraph.Calls (g : CallGraph) (v w : ℕ) : Prop := ∃ edges, g.callees[v]? = some edges ∧ w ∈ edges

end Ens.Inlining
