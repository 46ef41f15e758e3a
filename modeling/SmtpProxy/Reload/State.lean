/-
  Clients and a reload of the configuration, as a transition system: the
  blocked test of `handleClient` and the look-up of `sendMail` (client.c), the
  pools of the transports (`Pool`), and the reload branch of `mainLoop` (main.c)
  with `abortTransportsConns`, `freeTransports` and `loadTpConfig`
  (transport.c).

  A `tp_t` is named by its position in `heap`, which keeps the freed ones; a
  visit of the list `transports` is at the first of the nodes it has still to
  visit.  The reload goes through its calls one list node at a time, and runs
  `abortTpConns` as the abort thread of the node's pool.

  * `Req`, `reqStep`: a client thread, from the complete message to the reply;
  * `MainPc`, `mainStep`: the reload;
  * `step`: one step of the system.
-/
import SmtpProxy.Envelope
import SmtpProxy.Pool.State

namespace SmtpProxy

open CString

/-- `tp_t` -/
structure TpObj where
  tp : Tp
  pool : Pool
  freed : Bool
  deriving DecidableEq

/-- Where a client thread is with its message. -/
inductive Req where
  | read  -- reading
  | test (msg : Bytes)  -- before the lock of `blockMtx`
  | wait (msg : Bytes)  -- blocked on `unblockCond`
  | woken (msg : Bytes)
  | passed (msg : Bytes)  -- past the blocked test, before `sendMail`
  | look (name : Bytes) (nodes : List ℕ)  -- in `dllistVisit(…, findTpByName, name)`
  | send (t : ℕ)  -- in `tpSendMail`, where the pool of `t` says
  | reply  -- `sendMail` has returned
  deriving DecidableEq

/-- Where the reload is. -/
inductive MainPc where
  | idle  -- accepting connections
  | block  -- before `blockClients`
  | abort (nodes : List ℕ)  -- in `abortTransportsConns`
  | free (nodes : List ℕ)  -- in `freeTransports`, visiting with `freeTp`
  | unlink  -- in `freeTransports`, deleting the nodes
  | load (tps : List Tp)  -- in `loadTpConfig`, with the sections still to add
  | unblock  -- before `unblockClients`
  | bcast  -- before its broadcast
  deriving DecidableEq

structure System where
  heap : List TpObj
  transports : List ℕ
  blocked : Bool
  reqs : List Req
  main : MainPc
  deriving DecidableEq

/-- What is scheduled. -/
inductive Move where
  | client (i : ℕ) (msg : Bytes) (ok : Bool)  -- `msg`: what is read; `ok`: as in `Action`
  | spurious (i : ℕ)  -- the wait on `unblockCond` returns without a signal
  | main (config : List Tp)  -- `config`: what transport.ini holds
  | pool (t : ℕ) (a : Action)  -- another step in the pool of `t`
  deriving DecidableEq

/-- The steps of a pool that are not those of a client or of `abortTpConns`. -/
def Action.other : Action → Bool
  | .client _ _ | .abort => false
  | _ => true

/-- What the broadcast of `unblockClients` does to a client. -/
def Req.wake : Req → Req
  | .wait msg => .woken msg
  | r => r

namespace System

/-- After the first `loadTpConfig`, with `n` client threads. -/
def init (tps : List Tp) (n : ℕ) : System :=
  ⟨tps.map fun tp => ⟨tp, .init n, false⟩, List.range tps.length, false, List.replicate n .read, .idle⟩

section
variable (s : System)

def setReq (i : ℕ) (r : Req) : System := { s with reqs := s.reqs.set i r }

def setTp (t : ℕ) (o : TpObj) : System := { s with heap := s.heap.set t o }

/-- A step in the pool of `t`. -/
def poolStep (t : ℕ) (a : Action) : Option System :=
  s.heap[t]?.bind fun o => (o.pool.step o.tp a).map fun pool => s.setTp t { o with pool := pool }

/-! ## Client threads -/

/-- The test of `blocked`: wait, or go on to `sendMail`. -/
def testBlocked (i : ℕ) (msg : Bytes) : System :=
  s.setReq i (if s.blocked then .wait msg else .passed msg)

/-- `sendMail` up to its look-up. -/
def startSend (i : ℕ) (msg : Bytes) : System :=
  let e := prepareSendMail (msg ++ [0]) [] 1024
  s.setReq i (if e.ret then .look e.sender s.transports else .reply)

/-- `findTpByName` at the node of `t`. -/
def findTpByName (i : ℕ) (name : Bytes) (t : ℕ) (nodes : List ℕ) (ok : Bool) : Option System :=
  s.heap[t]?.bind fun o =>
    if strcmp o.tp.name name then
      if o.pool.clients[i]? = some .out then
        (s.poolStep t (.client i ok)).map fun s => s.setReq i (.send t)
      else none
    else some (s.setReq i (.look name nodes))

/-- A step in `tpSendMail`; it returns to where it was called. -/
def sendStep (i t : ℕ) (ok : Bool) : Option System :=
  s.heap[t]?.bind fun o =>
    if o.pool.clients[i]? = some .out then none
    else (s.poolStep t (.client i ok)).map fun u =>
      if u.heap[t]?.bind (fun o => o.pool.clients[i]?) = some .out then u.setReq i .reply else u

/-- A step of the client `i`. -/
def reqStep (i : ℕ) (msg : Bytes) (ok : Bool) : Req → Option System
  | .read => some (s.setReq i (.test msg))
  | .test msg | .woken msg => some (s.testBlocked i msg)
  | .wait _ => none
  | .passed msg => some (s.startSend i msg)
  | .look _ [] => some (s.setReq i .reply)
  | .look name (t :: nodes) => s.findTpByName i name t nodes ok
  | .send t => s.sendStep i t ok
  | .reply => some (s.setReq i .read)

/-! ## The reload -/

/-- `abortTpConns` at the node of `t`; the visit goes on when it returns. -/
def abortStep (t : ℕ) (nodes : List ℕ) : Option System :=
  s.heap[t]?.bind fun o =>
    if o.pool.abort = .done then some { s with main := .abort nodes } else s.poolStep t .abort

/-- `freeTp` at the node of `t`. -/
def freeTp (t : ℕ) (nodes : List ℕ) : Option System :=
  s.heap[t]?.map fun o => { s.setTp t { o with freed := true } with main := .free nodes }

/-- `newTp` for a section of the configuration. -/
def newTp (tp : Tp) (tps : List Tp) : System :=
  { s with
    heap := s.heap ++ [⟨tp, .init s.reqs.length, false⟩]
    transports := s.transports ++ [s.heap.length]
    main := .load tps }

/-- A step of the reload. -/
def mainStep (config : List Tp) : MainPc → Option System
  | .idle => some { s with main := .block }
  | .block => some { s with blocked := true, main := .abort s.transports }
  | .abort (t :: nodes) => s.abortStep t nodes
  | .abort [] => some { s with main := .free s.transports }
  | .free (t :: nodes) => s.freeTp t nodes
  | .free [] => some { s with main := .unlink }
  | .unlink =>
    some (match s.transports with
      | [] => { s with main := .load config }
      | _ :: nodes => { s with transports := nodes })
  | .load (tp :: tps) => some (s.newTp tp tps)
  | .load [] => some { s with main := .unblock }
  | .unblock => some { s with blocked := false, main := .bcast }
  | .bcast => some { s with reqs := s.reqs.map Req.wake, main := .idle }

/-! ## The system -/

def step (s : System) : Move → Option System
  | .client i msg ok => s.reqs[i]?.bind (s.reqStep i msg ok)
  | .spurious i =>
    s.reqs[i]?.bind fun r => match r with
      | .wait msg => some (s.setReq i (.woken msg))
      | _ => none
  | .main config => s.mainStep config s.main
  | .pool t a => if a.other then s.poolStep t a else none

end

end System

end SmtpProxy
