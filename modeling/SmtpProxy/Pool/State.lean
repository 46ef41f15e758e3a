/-
  The connection pool of a transport (transport.c), as a transition system.

  The threads are the clients calling `tpSendMail`, the `connNOOP` thread of
  each connection, and the thread that runs `abortTpConns`.  A step is what a
  thread does between two points at which others can run: a section under
  `tp->mtx` (split at the condition waits), or one statement outside of it.
  The sections that do I/O with the lock held (`newConn`, and `endConn` called
  with the lock) keep `mtx` set from one step to the next.  What the server,
  the clock and the scheduler decide is in the `Action`.

  * `getAnIdleConn`, `waitLoop`, `giveUp`: the locked sections of a client that
    wants a connection; `releaseConn`, `retireConn`: those that give it back;
  * `noopTop`, `noopBack`, `endConnLocked`, `endConnDelete`: those of `connNOOP`;
  * `abortLoop`, `endLoop`: those of `abortTpConns`.

  A connection is named by its position in `conns`, which keeps the ended ones.
-/
import Mathlib.Data.List.Basic
import SmtpProxy.Transport

namespace SmtpProxy

/-- `conn->status` -/
inductive Status where
  | busy
  | idle
  | noop
  deriving DecidableEq

/-- Where a `connNOOP` thread is. -/
inductive NoopPc where
  | top  -- at the top of its loop, before the lock
  | wait  -- blocked on `conn->cond`
  | woken  -- woken, before it has the lock again
  | count  -- before `conn->noopCount++`
  | noop  -- in `smtpNOOP`
  | relock  -- before the lock of `noop -> idle`
  | bcast  -- before its broadcast of `idleCond`
  | sleep  -- in `sleep`
  | closeHeld  -- in `endConn` with the lock, closing the connection
  | close  -- in `endConn` without the lock, closing the connection
  | delete  -- in `endConn`, closed, before the lock
  | destroy  -- in `endConn` after unlocking: before `pthread_cond_destroy`/`free`
  | endSignal  -- before the signal of `endCond`
  | endBcast  -- before the last broadcast of `idleCond`
  | exited
  deriving DecidableEq

/-- `tpConn_t`, with `sockOpen` for the descriptor and the place of its thread. -/
structure Conn where
  status : Status
  sendCount : ℤ
  noopCount : ℤ
  endFlag : Bool
  sockOpen : Bool
  pc : NoopPc
  deriving DecidableEq

/-- A connection as `newConn` adds it. -/
def Conn.added : Conn := ⟨.busy, 0, 0, false, true, .top⟩

/-- Where a client thread is in `tpSendMail`. -/
inductive ClientPc where
  | out  -- not in `tpSendMail`
  | call  -- before the lock in `getAnIdleConn`
  | wait  -- blocked on `idleCond`
  | woken  -- woken, before it has the lock again
  | expired  -- timed out, before it has the lock again
  | connect  -- in `newConn`, connecting (with the lock)
  | setup  -- in `newConn`, in EHLO and AUTH (with the lock)
  | got (c : ℕ) (isNew : Bool)  -- `getAnIdleConn` has returned the connection `c`
  | rset (c : ℕ)  -- in `smtpRSET`
  | mail (c : ℕ)  -- in MAIL, RCPT and DATA
  | sent (c : ℕ)  -- before `conn->sendCount++`
  | limit (c : ℕ)  -- before the test of `sendCount`
  | pause (c : ℕ)  -- in `sleep`
  | release (c : ℕ)  -- before the lock of `busy -> idle`
  | retire (c : ℕ) (ret : Bool)  -- at `end:`, before the lock
  | bcast (c : ℕ)  -- before its broadcast of `idleCond`
  | signal (c : ℕ) (ret : Bool)  -- before its signal of `conn->cond`
  | ret (r : Bool)  -- `tpSendMail` returns
  deriving DecidableEq

/-- Where the thread of `abortTpConns` is. -/
inductive AbortPc where
  | out
  | start  -- before the lock
  | waitIdle  -- blocked on `idleCond`
  | wokenIdle
  | waitEnd  -- blocked on `endCond`
  | wokenEnd
  | done
  deriving DecidableEq

/-- The threads that can hold `tp->mtx` from one step to the next. -/
inductive Thread where
  | client (i : ℕ)
  | noop (c : ℕ)
  deriving DecidableEq

/-- `dllist_t`, by the connections of its nodes. -/
structure Dllist where
  nodes : List ℕ
  count : ℤ
  deriving DecidableEq

def dllistAppend (l : Dllist) (c : ℕ) : Dllist := ⟨l.nodes ++ [c], l.count + 1⟩

def dllistDelete (l : Dllist) (c : ℕ) : Dllist := ⟨l.nodes.erase c, l.count - 1⟩

structure Pool where
  mtx : Option Thread
  busyConns : Dllist
  idleConns : Dllist
  noopConns : Dllist
  waiting : ℤ
  totalSend : ℤ
  todaySend : ℤ
  conns : List Conn
  clients : List ClientPc
  abort : AbortPc
  deriving DecidableEq

/-- What is scheduled.  `ok` is the outcome of the I/O at that point, where
    there is one: the exchange succeeds. -/
inductive Action where
  | client (i : ℕ) (ok : Bool)
  | timeout (i : ℕ)  -- the deadline of a blocked client passes
  | noop (c : ℕ) (ok : Bool)
  | abort
  | spuriousClient (i : ℕ)  -- a wait returns without a signal
  | spuriousNoop (c : ℕ)
  | spuriousAbort
  | resetToday  -- `resetTpTodaySendCounter`
  deriving DecidableEq

/-- What a broadcast of `idleCond` does to a client. -/
def ClientPc.wake : ClientPc → ClientPc
  | .wait => .woken
  | pc => pc

namespace Pool

/-- A transport as `newTp` leaves it, and `n` client threads. -/
def init (n : ℕ) : Pool :=
  ⟨none, ⟨[], 0⟩, ⟨[], 0⟩, ⟨[], 0⟩, 0, 0, 0, [], List.replicate n .out, .out⟩

/-! ## Updates -/

section
variable (s : Pool)

/-- The list of the connections with a status. -/
def list : Status → Dllist
  | .busy => s.busyConns
  | .idle => s.idleConns
  | .noop => s.noopConns

def setList (st : Status) (l : Dllist) : Pool :=
  match st with
  | .busy => { s with busyConns := l }
  | .idle => { s with idleConns := l }
  | .noop => { s with noopConns := l }

/-- `dllistMvNode` between two of the lists -/
def dllistMvNode (a : Status) (c : ℕ) (b : Status) : Pool :=
  let s := s.setList a (dllistDelete (s.list a) c)
  s.setList b (dllistAppend (s.list b) c)

def setClient (i : ℕ) (pc : ClientPc) : Pool := { s with clients := s.clients.set i pc }

def updConn (c : ℕ) (f : Conn → Conn) : Pool := { s with conns := s.conns.modify c f }

def setPc (c : ℕ) (pc : NoopPc) : Pool := s.updConn c fun k => { k with pc := pc }

/-- `conn->status = b; dllistMvNode(tp->aConns, conn->node, tp->bConns)` -/
def move (c : ℕ) (a b : Status) : Pool :=
  (s.updConn c fun k => { k with status := b }).dllistMvNode a c b

/-- `pthread_cond_broadcast(&tp->idleCond)` -/
def broadcastIdle : Pool :=
  { s with
    clients := s.clients.map ClientPc.wake
    abort := if s.abort = .waitIdle then .wokenIdle else s.abort }

/-- `pthread_cond_signal(&conn->cond)`: only its own thread waits on it. -/
def signalConn (c : ℕ) : Pool :=
  s.updConn c fun k => { k with pc := if k.pc = .wait then .woken else k.pc }

/-- `pthread_cond_signal(&tp->endCond)`: only `abortTpConns` waits on it. -/
def signalEnd : Pool := { s with abort := if s.abort = .waitEnd then .wokenEnd else s.abort }

/-- A section under `tp->mtx`. -/
def locked (t : Pool) : Option Pool := if s.mtx = none then some t else none

/-! ## Client threads -/

/-- The head of `idleConns` becomes busy. -/
def takeIdle (i : ℕ) : Option Pool :=
  s.idleConns.nodes.head?.map fun c => (s.move c .idle .busy).setClient i (.got c false)

/-- `newConn` starts; the lock is kept. -/
def startConn (i : ℕ) : Pool := { s with mtx := some (.client i) }.setClient i .connect

variable (tp : Tp)

/-- `getAnIdleConn` from the test of its wait loop on. -/
def waitLoop (i : ℕ) : Option Pool :=
  if s.idleConns.count = 0 ∧ s.busyConns.count + s.noopConns.count = tp.maxConn then
    some (s.setClient i .wait)
  else
    let s := { s with waiting := s.waiting - 1 }
    if s.idleConns.count ≠ 0 then s.takeIdle i else some (s.startConn i)

/-- `getAnIdleConn` up to its wait. -/
def getAnIdleConn (i : ℕ) : Option Pool :=
  if s.idleConns.count ≠ 0 then s.takeIdle i
  else if s.busyConns.count + s.noopConns.count < tp.maxConn then some (s.startConn i)
  else { s with waiting := s.waiting + 1 }.waitLoop tp i

/-- `getAnIdleConn` after ETIMEDOUT. -/
def giveUp (i : ℕ) : Pool := { s with waiting := s.waiting - 1 }.setClient i (.ret false)

/-- `newConn` fails: the socket is closed and the lock released. -/
def connFailed (i : ℕ) : Pool := { s with mtx := none }.setClient i (.ret false)

/-- `newConn` succeeds: the connection is added and its thread created.
    `pthread_create` is taken to succeed; the source does not look at its result. -/
def connAdded (i : ℕ) : Pool :=
  { s with
    mtx := none
    busyConns := dllistAppend s.busyConns s.conns.length
    conns := s.conns ++ [Conn.added] }.setClient i (.got s.conns.length true)

/-- `busy -> idle` -/
def releaseConn (i c : ℕ) : Pool :=
  { s with totalSend := s.totalSend + 1, todaySend := s.todaySend + 1 }.move c .busy .idle
    |>.setClient i (.bcast c)

/-- The section at `end:`. -/
def retireConn (i c : ℕ) (ret : Bool) : Pool :=
  let s := if ret then { s with totalSend := s.totalSend + 1, todaySend := s.todaySend + 1 } else s
  (s.updConn c fun k => { k with endFlag := true }).move c .busy .noop
    |>.setClient i (.signal c ret)

/-- A step of the client `i`. -/
def clientStep (i : ℕ) (ok : Bool) : ClientPc → Option Pool
  | .out => some (s.setClient i .call)
  | .call => (s.getAnIdleConn tp i).bind s.locked
  | .wait => none
  | .woken => (s.waitLoop tp i).bind s.locked
  | .expired => s.locked (s.giveUp i)
  | .connect => some (if ok then s.setClient i .setup else s.connFailed i)
  | .setup => some (if ok then s.connAdded i else s.connFailed i)
  | .got c isNew =>
    some ((s.updConn c fun k => { k with noopCount := 0 }).setClient i
      (if isNew then .mail c else .rset c))
  | .rset c => some (s.setClient i (if ok then .mail c else .retire c false))
  | .mail c => some (s.setClient i (if ok then .sent c else .retire c false))
  | .sent c =>
    some ((s.updConn c fun k => { k with sendCount := k.sendCount + 1 }).setClient i (.limit c))
  | .limit c =>
    s.conns[c]?.map fun k => s.setClient i (
      if k.sendCount = tp.maxSendPerConn then .retire c true
      else if tp.sleepSecondsPerSend ≠ 0 then .pause c else .release c)
  | .pause c => some (s.setClient i (.release c))
  | .release c => s.locked (s.releaseConn i c)
  | .retire c ret => s.locked (s.retireConn i c ret)
  | .bcast c => some (s.broadcastIdle.setClient i (.signal c true))
  | .signal c ret => some ((s.signalConn c).setClient i (.ret ret))
  | .ret _ => some (s.setClient i .out)

/-! ## connNOOP threads -/

/-- `endConn` with the lock. -/
def endConnLocked (c : ℕ) : Pool := { s with mtx := some (.noop c) }.setPc c .closeHeld

/-- `endConn`: `dllistDelete(tp->noopConns, conn)` and unlock. -/
def endConnDelete (c : ℕ) : Pool :=
  { s with mtx := none }.setList .noop (dllistDelete s.noopConns c) |>.setPc c .destroy

/-- `idle -> noop`, from the test of the wait loop on. -/
def noopTop (c : ℕ) (k : Conn) : Pool :=
  if k.status = .busy ∨ (k.status = .idle ∧ 0 < s.waiting) then s.setPc c .wait
  else
    let s := if k.status = .idle then s.move c .idle .noop else s
    if k.endFlag then s.endConnLocked c else s.setPc c .count

/-- `noop -> idle` -/
def noopBack (c : ℕ) (k : Conn) : Pool :=
  if k.endFlag then s.endConnLocked c else (s.move c .noop .idle).setPc c .bcast

/-- A step of the thread of the connection `c`. -/
def noopStep (c : ℕ) (ok : Bool) (k : Conn) : Option Pool :=
  match k.pc with
  | .top | .woken => s.locked (s.noopTop c k)
  | .wait => none
  | .count => some (s.updConn c fun k => { k with noopCount := k.noopCount + 1, pc := .noop })
  | .noop => some (s.setPc c (if !ok || k.noopCount = tp.maxNoop then .close else .relock))
  | .relock => s.locked (s.noopBack c k)
  | .bcast => some (s.broadcastIdle.setPc c .sleep)
  | .sleep => some (s.setPc c .top)
  | .closeHeld => some ((s.updConn c fun k => { k with sockOpen := false }).endConnDelete c)
  | .close => some (s.updConn c fun k => { k with sockOpen := false, pc := .delete })
  | .delete => s.locked (s.endConnDelete c)
  | .destroy => some (s.setPc c .endSignal)
  | .endSignal => some (s.signalEnd.setPc c .endBcast)
  | .endBcast => some (s.broadcastIdle.setPc c .exited)
  | .exited => none

/-! ## abortTpConns -/

/-- `dllistVisit(…, setEndFlag, NULL)` -/
def setEndFlags : List ℕ → Pool → Pool
  | [], s => s
  | c :: cs, s => setEndFlags cs (s.updConn c fun k => { k with endFlag := true })

/-- The wait for the connections to end. -/
def endLoop : Pool :=
  { s with abort := if s.noopConns.count + s.idleConns.count > 0 then .waitEnd else .done }

/-- The wait for the clients, then the flags. -/
def abortLoop : Pool :=
  if s.busyConns.count ≠ 0 ∨ 0 < s.waiting then { s with abort := .waitIdle }
  else
    let s := if s.noopConns.count ≠ 0 then setEndFlags s.noopConns.nodes s else s
    let s := if s.idleConns.count ≠ 0 then setEndFlags s.idleConns.nodes s else s
    s.endLoop

def abortStep : Option Pool :=
  match s.abort with
  | .out => some { s with abort := .start }
  | .start | .wokenIdle => s.locked s.abortLoop
  | .wokenEnd => s.locked s.endLoop
  | .waitIdle | .waitEnd | .done => none

/-- A wait of `abortTpConns` returns without a signal. -/
def abortSpurious : Option Pool :=
  match s.abort with
  | .waitIdle => some { s with abort := .wokenIdle }
  | .waitEnd => some { s with abort := .wokenEnd }
  | _ => none

end

/-! ## The system -/

/-- One step of the pool of the transport `tp`. -/
def step (tp : Tp) (s : Pool) : Action → Option Pool
  | .client i ok => s.clients[i]?.bind fun pc => s.clientStep tp i ok pc
  | .timeout i => if s.clients[i]? = some .wait then some (s.setClient i .expired) else none
  | .noop c ok => s.conns[c]?.bind fun k => s.noopStep tp c ok k
  | .abort => s.abortStep
  | .spuriousClient i => if s.clients[i]? = some .wait then some (s.setClient i .woken) else none
  | .spuriousNoop c =>
    s.conns[c]?.bind fun k => if k.pc = .wait then some (s.setPc c .woken) else none
  | .spuriousAbort => s.abortSpurious
  | .resetToday => s.locked { s with todaySend := 0 }

end Pool

end SmtpProxy
