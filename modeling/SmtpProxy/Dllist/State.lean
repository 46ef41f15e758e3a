/-
  The lists of dllist.c: any number of them, with their nodes in one heap.

  Nodes, lists and data are names, and the data are not modelled but for their
  pointer to their node.  `calloc` may return any name that is not in use, also
  one that was freed before.  A function that would go through a NULL or freed
  pointer returns `none`.

  * `dllistAppendNode`, `dllistDeleteNode`: the pointer surgery; the other
    functions are built on it;
  * `step`: one call; `dllistVisit`, with the calls of its handler.
-/
import Mathlib.Data.Int.Notation
import SmtpProxy.Lib.Heap
import SmtpProxy.Lib.Visits

namespace SmtpProxy

/-- `dllistNode_t` -/
structure DllistNode where
  data : Option ℕ
  prev : Option ℕ
  next : Option ℕ
  deriving DecidableEq

/-- `dllist_t` -/
structure DllistEnds where
  head : Option ℕ
  tail : Option ℕ
  count : ℤ
  deriving DecidableEq

def dllistNew : DllistEnds := ⟨none, none, 0⟩

/-- The lists, their nodes, and the pointers of the data to their nodes
    (`dllistNodeData_t`). -/
structure Dllists where
  list : ℕ → DllistEnds
  heap : Heap DllistNode
  node : ℕ → Option ℕ

/-- A call of one of the functions that change lists; `node`, in an append, is
    what `calloc` returns. -/
inductive DllistCall where
  | append (i data node : ℕ)
  | delete (i : ℕ) (data : Option ℕ)
  | appendNode (i node : ℕ)
  | deleteNode (i node : ℕ)
  | mvNode (a aNode b : ℕ)
  deriving DecidableEq

namespace Dllists

/-- New lists, with nothing allocated. -/
def empty : Dllists := ⟨fun _ => dllistNew, .empty, fun _ => none⟩

section
variable (s : Dllists)

def setList (i : ℕ) (d : DllistEnds) : Dllists := { s with list := Function.update s.list i d }

def dllistAppendNode (i node : ℕ) : Option Dllists :=
  let d := s.list i
  match d.tail with
  | none =>
    (s.heap.write node fun k => { k with prev := none, next := none }).map fun heap =>
      { s with heap := heap }.setList i ⟨some node, some node, d.count + 1⟩
  | some tail =>
    (s.heap.write node fun k => { k with prev := some tail, next := none }).bind fun heap =>
    (heap.write tail fun k => { k with next := some node }).map fun heap =>
      { s with heap := heap }.setList i ⟨d.head, some node, d.count + 1⟩

def dllistDeleteNode (i node : ℕ) : Option Dllists :=
  let d := s.list i
  if some node = d.head then
    (s.heap.get node).bind fun k =>
      match k.next with
      | some next =>
        (s.heap.write next fun k => { k with prev := none }).bind fun heap =>
        (heap.write node fun k => { k with next := none }).map fun heap =>
          { s with heap := heap }.setList i ⟨some next, d.tail, d.count - 1⟩
      | none =>
        (s.heap.write node fun k => { k with next := none }).map fun heap =>
          { s with heap := heap }.setList i ⟨none, none, d.count - 1⟩
  else if some node = d.tail then
    (s.heap.get node).bind fun k => k.prev.bind fun tail =>
      (s.heap.write tail fun k => { k with next := none }).bind fun heap =>
      (heap.write node fun k => { k with prev := none }).map fun heap =>
        { s with heap := heap }.setList i ⟨d.head, some tail, d.count - 1⟩
  else
    (s.heap.get node).bind fun k => k.prev.bind fun prev =>
      (s.heap.write prev fun p => { p with next := k.next }).bind fun heap =>
      (heap.get node).bind fun k => k.next.bind fun next =>
      (heap.write next fun p => { p with prev := k.prev }).bind fun heap =>
      (heap.write node fun k => { k with prev := none, next := none }).map fun heap =>
        { s with heap := heap }.setList i ⟨d.head, d.tail, d.count - 1⟩

def dllistMvNode (a aNode b : ℕ) : Option Dllists :=
  (s.dllistDeleteNode a aNode).bind fun s => s.dllistAppendNode b aNode

def dllistAppend (i data node : ℕ) : Option Dllists :=
  (s.heap.place node ⟨none, none, none⟩).bind fun heap =>
  (heap.write node fun k => { k with data := some data }).bind fun heap =>
    { s with
      heap := heap
      node := Function.update s.node data (some node) }.dllistAppendNode i node

def dllistDelete (i : ℕ) (data : Option ℕ) : Option Dllists :=
  match data with
  | none => some s
  | some data =>
    match s.node data with
    | none => some s
    | some node =>
      (s.heap.write node fun k => { k with data := none }).bind fun heap =>
      ({ s with
        heap := heap
        node := Function.update s.node data none }.dllistDeleteNode i node).bind fun s =>
      (s.heap.free node).map fun heap => { s with heap := heap }

def step : DllistCall → Option Dllists
  | .append i data node => s.dllistAppend i data node
  | .delete i data => s.dllistDelete i data
  | .appendNode i node => s.dllistAppendNode i node
  | .deleteNode i node => s.dllistDeleteNode i node
  | .mvNode a aNode b => s.dllistMvNode a aNode b

end

/-! ## `dllistVisit` -/

section
variable {σ : Type*} (s : Dllists) (nodeHandler : ℕ → Option ℕ → σ → ℤ × σ)

/-- The loop of `dllistVisit`, for so many rounds at most. -/
def visitLoop : ℕ → Option ℕ → ℕ → σ → Option (Visit (Option ℕ) σ)
  | 0, _, _, _ => none
  | _ + 1, none, _, arg => some ⟨[], none, arg⟩
  | rounds + 1, some node, idx, arg =>
    (s.heap.get node).bind fun k =>
      let (r, arg) := nodeHandler idx k.data arg
      if r = 0 then some ⟨[(k.data, idx)], some k.data, arg⟩
      else
        (visitLoop rounds k.next (idx + 1) arg).map fun v =>
          { v with calls := (k.data, idx) :: v.calls }

/-- `dllistVisit`, with the calls of its handler; it returns `node->data` if it
    has stopped at a node (`found`), else NULL. -/
def dllistVisit (rounds i : ℕ) (arg : σ) : Option (Visit (Option ℕ) σ × Option ℕ) :=
  (visitLoop s nodeHandler rounds (s.list i).head 0 arg).map fun v => (v, v.found.join)

end

end Dllists

end SmtpProxy
