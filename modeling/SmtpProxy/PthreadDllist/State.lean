/-
  The list of the clients with its lock (pthread_dllist.c), as a transition
  system: any number of threads that call `pthread_dllistAppend`,
  `pthread_dllistDelete` and `pthread_dllistVisit`.

  A step is a section under `dllist->mtx`, or one statement outside of it; a
  visit, which keeps the lock while it calls the handlers, takes one step for
  each call.  Nodes are names in a heap, and so are the data, which are not
  modelled but for their pointer to their node.  A step that would go through a
  NULL or freed pointer is not enabled.

  * `linkNode`, `unlinkNode`: the two pieces of pointer surgery;
  * `appendLocked`: `pthread_dllistAppend` with the lock;
  * `step`: one step; `event`: what is seen of it.
-/
import Mathlib.Data.Int.Notation
import SmtpProxy.Lib.Heap
import SmtpProxy.Lib.Logs

namespace SmtpProxy

/-- `pthread_dllistNode_t` -/
structure PthreadNode where
  data : Option ℕ
  prev : Option ℕ
  next : Option ℕ
  deriving DecidableEq

/-- Where a thread is. -/
inductive DllistPc where
  | out  -- in none of the three functions
  | append (data : ℕ)  -- in `pthread_dllistAppend`, before the lock
  | wait (data : ℕ)  -- blocked on `dllist->cond`
  | woken (data : ℕ)  -- woken, before it has the lock again
  | expired (data : ℕ)  -- timed out, before it has the lock again
  | delete (data : ℕ)  -- in `pthread_dllistDelete`, before `node = data->node`
  | clear (data node : ℕ)  -- before `node->data = NULL`
  | forget (data node : ℕ)  -- before `data->node = NULL`
  | unlink (node : ℕ)  -- before the lock
  | signal (node : ℕ)  -- before `pthread_cond_signal`
  | free (node : ℕ)  -- before `free(node)`
  | visit  -- in `pthread_dllistVisit`, before the lock
  | visiting (idx : ℕ) (node : Option ℕ)  -- at the test of its loop, with the lock
  | stopped (node : ℕ)  -- after the unlock, before `return node->data`
  deriving DecidableEq

/-- `pthread_dllist_t`, the heap, the pointers of the data, and the threads. -/
structure PthreadDllist where
  head : Option ℕ
  tail : Option ℕ
  count : ℤ
  mtx : Option ℕ
  heap : Heap PthreadNode
  node : ℕ → Option ℕ
  threads : List DllistPc

/-- What is scheduled: the thread `i` calls a function, goes on (`ok`: `preAppend`
    succeeds, the handler does not return 0), signals `dllist->cond` and wakes
    the thread `j`; its wait times out, or returns without a signal. -/
inductive DllistAct where
  | append (i data : ℕ)
  | delete (i : ℕ) (data : Option ℕ)
  | visit (i : ℕ)
  | go (i : ℕ) (ok : Bool)
  | signal (i : ℕ) (j : Option ℕ)
  | timeout (i : ℕ)
  | spurious (i : ℕ)
  deriving DecidableEq

/-- What is seen: an append has linked a node for its data, or returned 0; a
    delete has unlinked a node; a visitor has called its handler. -/
inductive DllistEvent where
  | linked (data node : ℕ)
  | rejected (i data : ℕ)
  | unlinked (node : ℕ)
  | handled (idx : ℕ) (data : Option ℕ)
  deriving DecidableEq

/-- The thread that takes a step. -/
def DllistAct.thread : DllistAct → ℕ
  | .append i _ | .delete i _ | .visit i | .go i _ | .signal i _ | .timeout i | .spurious i => i

/-- The data that a thread is appending. -/
def DllistPc.appending? : DllistPc → Option ℕ
  | .append d | .wait d | .woken d | .expired d => some d
  | _ => none

/-- The data that a delete has not let go. -/
def DllistPc.deleting? : DllistPc → Option ℕ
  | .delete data | .clear data _ | .forget data _ => some data
  | _ => none

/-- The thread is blocked on `dllist->cond`. -/
def DllistPc.waits : DllistPc → Bool
  | .wait _ => true
  | _ => false

namespace PthreadDllist

/-- A list as `pthread_dllistInit` leaves it, and `n` threads. -/
def init (n : ℕ) : PthreadDllist :=
  ⟨none, none, 0, none, .empty, fun _ => none, List.replicate n .out⟩

section
variable (maxNodes : ℕ) (s : PthreadDllist)

def goto (i : ℕ) (pc : DllistPc) : PthreadDllist := { s with threads := s.threads.set i pc }

/-- The pointers of the nodes. -/
def next : ℕ → Option ℕ := s.heap.field PthreadNode.next

def prev : ℕ → Option ℕ := s.heap.field PthreadNode.prev

/-! ## The sections under the lock -/

/-- `pthread_dllistAppend`: the node of `data` is made and linked. -/
def linkNode (data : ℕ) : Option PthreadDllist :=
  let node := s.heap.fresh
  let heap := s.heap.alloc ⟨some data, none, none⟩
  let s := { s with node := Function.update s.node data (some node) }
  match s.tail with
  | none =>
    (heap.write node fun k => { k with prev := none, next := none }).map fun heap =>
      { s with heap := heap, head := some node, tail := some node, count := s.count + 1 }
  | some tail =>
    (heap.write node fun k => { k with prev := some tail, next := none }).bind fun heap =>
    (heap.write tail fun k => { k with next := some node }).map fun heap =>
      { s with heap := heap, tail := some node, count := s.count + 1 }

/-- `pthread_dllistDelete`: the node is unlinked. -/
def unlinkNode (node : ℕ) : Option PthreadDllist :=
  let s := { s with count := s.count - 1 }
  if some node = s.head then
    (s.heap.get node).bind fun k =>
      match k.next with
      | some next =>
        (s.heap.write next fun k => { k with prev := none }).bind fun heap =>
        (heap.write node fun k => { k with next := none }).map fun heap =>
          { s with heap := heap, head := some next }
      | none =>
        (s.heap.write node fun k => { k with next := none }).map fun heap =>
          { s with heap := heap, head := none, tail := none }
  else if some node = s.tail then
    (s.heap.get node).bind fun k => k.prev.bind fun tail =>
      (s.heap.write tail fun k => { k with next := none }).bind fun heap =>
      (heap.write node fun k => { k with prev := none }).map fun heap =>
        { s with heap := heap, tail := some tail }
  else
    (s.heap.get node).bind fun k => k.prev.bind fun prev =>
      (s.heap.write prev fun p => { p with next := k.next }).bind fun heap =>
      (heap.get node).bind fun k => k.next.bind fun next =>
      (heap.write next fun p => { p with prev := k.prev }).bind fun heap =>
      (heap.write node fun k => { k with prev := none, next := none }).map fun heap =>
        { s with heap := heap }

/-- `pthread_dllistAppend` from the test of its wait loop on. -/
def appendLocked (i data : ℕ) (ok : Bool) : Option PthreadDllist :=
  if maxNodes ≠ 0 ∧ s.count = maxNodes then some (s.goto i (.wait data))
  else if !ok then some (s.goto i .out)
  else (s.linkNode data).map fun s => s.goto i .out

/-! ## The threads -/

/-- A thread goes on. -/
def goStep (i : ℕ) (ok : Bool) : DllistPc → Option PthreadDllist
  | .out | .wait _ | .signal _ => none
  | .append data | .woken data =>
    if s.mtx = none then s.appendLocked maxNodes i data ok else none
  | .expired _ => if s.mtx = none then some (s.goto i .out) else none
  | .delete data => some (s.goto i (match s.node data with
    | none => .out
    | some node => .clear data node))
  | .clear data node =>
    (s.heap.write node fun k => { k with data := none }).map fun heap =>
      { s with heap := heap }.goto i (.forget data node)
  | .forget data node =>
    some ({ s with node := Function.update s.node data none }.goto i (.unlink node))
  | .unlink node =>
    if s.mtx = none then
      (s.unlinkNode node).map fun s => s.goto i (if maxNodes ≠ 0 then .signal node else .free node)
    else none
  | .free node => (s.heap.free node).map fun heap => { s with heap := heap }.goto i .out
  | .visit => if s.mtx = none then some ({ s with mtx := some i }.goto i (.visiting 0 s.head)) else none
  | .visiting _ none => some ({ s with mtx := none }.goto i .out)
  | .visiting idx (some node) =>
    (s.heap.get node).map fun k =>
      if ok then s.goto i (.visiting (idx + 1) k.next) else { s with mtx := none }.goto i (.stopped node)
  | .stopped node => (s.heap.get node).map fun _ => s.goto i .out

/-- One step. -/
def step : DllistAct → Option PthreadDllist
  | .append i data => if s.threads[i]? = some .out then some (s.goto i (.append data)) else none
  | .delete i data =>
    if s.threads[i]? = some .out then
      some (match data with
        | none => s
        | some data => s.goto i (.delete data))
    else none
  | .visit i => if s.threads[i]? = some .out then some (s.goto i .visit) else none
  | .go i ok => s.threads[i]?.bind (s.goStep maxNodes i ok)
  | .signal i j =>
    match s.threads[i]?, j with
    | some (.signal node), none =>
      if s.threads.any DllistPc.waits then none else some (s.goto i (.free node))
    | some (.signal node), some j =>
      match s.threads[j]? with
      | some (.wait data) => some ((s.goto j (.woken data)).goto i (.free node))
      | _ => none
    | _, _ => none
  | .timeout i =>
    match s.threads[i]? with
    | some (.wait data) => some (s.goto i (.expired data))
    | _ => none
  | .spurious i =>
    match s.threads[i]? with
    | some (.wait data) => some (s.goto i (.woken data))
    | _ => none

end

/-- What is seen of the step `a` from `s` to `t`. -/
def event (s : PthreadDllist) (a : DllistAct) (t : PthreadDllist) : Option DllistEvent :=
  match a with
  | .go i _ =>
    match s.threads[i]? with
    | some (.append data) | some (.woken data) | some (.expired data) =>
      if t.threads[i]? ≠ some .out then none
      else if t.heap.fresh ≠ s.heap.fresh then some (.linked data s.heap.fresh)
      else some (.rejected i data)
    | some (.unlink node) => some (.unlinked node)
    | some (.visiting idx (some node)) => some (.handled idx (s.heap.field PthreadNode.data node))
    | _ => none
  | _ => none

end PthreadDllist

end SmtpProxy
