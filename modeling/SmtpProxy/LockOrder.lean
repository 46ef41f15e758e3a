/-
  The mutexes of the whole program, and their order.

  Every function that locks, or calls one that does, as what it does with mutexes
  and with what they guard (`Locks.Stmt`): the lists and counters of a transport
  while it is in use, the links of the list of the clients, `blocked`, and the lines
  of the log.  The process is run from `main` to its end, with the monitor, the
  timer's threads, a thread for each client and one for each connection, all started
  where the code starts them.  Which transport a function works on, and what it
  decides by its data, is a choice.  A cancellation can act where the code has it
  enabled and calls `poll`, `read`, `accept`, `write`, `close` or stdio: also in
  `mylog`, between the lock and the unlock.

  * `Mutex.rank`: the order `transportsMtx`, then the mutex of a transport, of the
    clients or of `blocked`, then that of the log;
  * one lemma a function: with which mutexes it is called and what it leaves;
  * `mutexes_ordered`: while no cancellation acts on a thread that has a mutex, whoever
    waits for one waits in the end for a thread that can go on, who sleeps, waits for a
    thread or has ended has none, and nobody uses what a mutex guards without it;
    `log_taken_along`: what becomes of the process when one does.
-/
import SmtpProxy.Lib.Locks

namespace SmtpProxy

/-- The mutexes of the program. -/
inductive Mutex where
  | transportsMtx
  | tp (t : ℕ)  -- `tp->mtx` of the transport `t`
  | clients  -- `clients->mtx`
  | blockMtx
  | log  -- `mtx` of log.c
  deriving DecidableEq

/-- The order in which they are locked. -/
def Mutex.rank : Mutex → ℕ
  | .transportsMtx => 0
  | .tp _ | .clients | .blockMtx => 1
  | .log => 2

namespace LockOrder

open Locks Stmt

abbrev Fn := Locks.Stmt Mutex

/-! ## log.c, rcpt.c, smtp.c -/

/-- In a thread that is not cancelled, or has disabled it. -/
def mylog : Fn := block [.act, .lock .log, .use .log, .use .log, .unlock .log, .act]

/-- In one that can be cancelled: in `fprintf` and `vfprintf`, with the mutex, and
    in `fflush`. -/
def mylogCancel (handlers : Fn) : Fn := block [.act,
  .lock .log,
  .use .log, .cancel handlers,
  .use .log, .cancel handlers,
  .unlock .log,
  .cancel handlers]

/-- A line for the log, and 0. -/
def fail : Fn := block [run mylog, .act, .ret false]

/-- `return f() && g()` -/
def both (f g : Fn) : Fn := .call f (.call g (.ret true) (.ret false)) (.ret false)

/-- `if (!f()) return 0` -/
def must (f : Fn) : Fn := .call f .act (.ret false)

def smtpWrite : Fn := block [.act,
  .choose (block [.choose (.ret true) .act, fail]) .act,  -- `conn->ssl`
  .choose fail .act,
  .choose fail .act,
  .ret true]

def smtpExpect : Fn := block [.act,
  .choose fail .act,  -- `poll`
  .choose fail .act,  -- `revents`
  .choose (.choose fail .act) (.choose fail .act),  -- `SSL_read` or `recv`
  .choose fail .act,
  .choose fail .act,
  .act,
  .choose (.ret false) .act,
  .ret true]

/-- `getaddrinfo`, and the addresses one by one; -1 is 0 here. -/
def tcpConnect : Fn := block [.act, .choose fail .act, .loop .act, .choose fail .act, .act, .ret true]

def smtpSSLConnect : Fn := block [.act, .choose fail .act, .ret true]

def smtpEHLO : Fn := block [
  .choose (must smtpSSLConnect) .act,
  must smtpExpect,
  .choose (block [must smtpWrite, must smtpExpect, must smtpWrite, must smtpExpect,
    must smtpSSLConnect]) .act,
  both smtpWrite smtpExpect]

def smtpAuth : Fn := block [
  .choose (.ret true) .act,
  .choose (block [.act, .ret false]) .act,
  must smtpWrite, must smtpExpect, .act,
  must smtpWrite, must smtpExpect, .act, .act,
  must smtpWrite, must smtpExpect, .act,
  .ret true]

def smtpMAILFROM : Fn := block [.act, both smtpWrite smtpExpect]

def smtpRCPTTO : Fn := block [.act,
  .loop (block [.act,
    .call smtpWrite
      (.call smtpExpect .act (.choose (.ret false) .act))
      (.choose (.ret false) .act),
    .act]),
  .ret true]

def smtpDATA : Fn := block [must smtpWrite, must smtpExpect, must smtpWrite, must smtpExpect, .ret true]

def smtpRSET : Fn := block [must smtpWrite,
  .call smtpExpect (.ret true) (.choose (.ret true) (.ret false))]

def smtpNOOP : Fn := both smtpWrite smtpExpect

def smtpQUIT : Fn := both smtpWrite smtpExpect

/-! ## dllist.c, pthread_dllist.c -/

/-- `dllistVisit(transports, nodeHandler, arg)` -/
def dllistVisit (nodeHandler : ℕ → Fn) : Fn := block [.act,
  .loop (.any fun t => .call (nodeHandler t) .act (.ret true)),  -- the `break` returns `node->data`
  .ret false]

def pthread_dllistAppend : Fn := block [.act,
  .lock .clients,
  .use .clients,
  .loop (block [.wait .clients, .choose (block [.unlock .clients, .ret false]) .act, .use .clients]),
  .choose (block [.unlock .clients, .ret false]) .act,  -- `preAppend`
  .use .clients,
  .unlock .clients,
  .ret true]

def pthread_dllistDelete : Fn := block [
  .choose (.ret true) .act,
  .choose (.ret true) .act,
  .act,  -- the pointers between the node and its data, without the lock
  .lock .clients, .use .clients, .unlock .clients, .act, .act]

/-- The loop as a function of its own, which a handler that returns 0 leaves. -/
def pthread_dllistVisit (nodeHandler : Fn) : Fn := block [.act,
  .lock .clients,
  .use .clients,
  run (.loop (block [.call nodeHandler .act (.ret true), .use .clients])),
  .unlock .clients,
  .choose (.ret true) (.ret false)]

def pthread_dllistCountNodes : Fn := block [.lock .clients, .use .clients, .unlock .clients, .ret true]

/-! ## transport.c -/

def tpIniHandler : Fn := block [.act, .choose .act (block [run mylog, .ret false]), .ret true]

/-- A check that ends the process. -/
def check : Fn := .choose (block [run mylog, .halt]) .act

def checkTp : Fn := block [check, check, check, check, check, check, check, check, check, .ret true]

def printTp : Fn := block [run mylog, .ret true]

def doTestTp : Fn := block [.act, run mylog,
  .call tcpConnect .act .halt,
  .act,
  .call smtpEHLO (.call smtpAuth (.call smtpQUIT (block [.act, run mylog, .ret true]) .act) .act) .act,
  run mylog,
  .halt]

def loadTpConfig (testTp : Bool) : Fn := block [
  .lock .transportsMtx,
  run mylog,
  .loop (run tpIniHandler),  -- `ini_parse`
  check,
  run (dllistVisit fun _ => checkTp),
  run mylog,
  run (dllistVisit fun _ => printTp),
  if testTp then block [run (dllistVisit fun _ => doTestTp), .halt] else .act,
  .unlock .transportsMtx]

def endConn (t : ℕ) (hasTpLock : Bool) : Fn := block [.act, .act,
  if hasTpLock then .act else .lock (.tp t),
  .use (.tp t),
  .unlock (.tp t),
  .act, .act, .act]

def connNOOP (t : ℕ) : Fn := block [.act, .act, .forever (block [
  -- idle -> noop
  .lock (.tp t),
  .use (.tp t),
  .loop (block [.wait (.tp t), .use (.tp t)]),
  .use (.tp t),
  .choose (block [run (endConn t true), .exit]) .act,
  .unlock (.tp t),
  -- noop
  .act,
  .call smtpNOOP (.choose (block [run (endConn t false), .exit]) .act)
    (block [run (endConn t false), .exit]),
  -- noop -> idle
  .lock (.tp t),
  .use (.tp t),
  .choose (block [run (endConn t true), .exit]) .act,
  .use (.tp t),
  .unlock (.tp t),
  .act, .act])]

def newConn (t : ℕ) : Fn := block [.act,
  .call tcpConnect .act (block [run mylog, .act, .ret false]),
  .act,
  .call smtpEHLO (.call smtpAuth (block [.act, .use (.tp t), .fork (connNOOP t), .ret true]) .act) .act,
  .act,
  .ret false]

/-- `conn = newConn(..); .. unlock; return conn` -/
def freshConn (t : ℕ) : Fn :=
  .call (newConn t) (block [.act, .unlock (.tp t), .ret true]) (block [.act, .unlock (.tp t), .ret false])

def getAnIdleConn (t : ℕ) : Fn := block [
  .lock (.tp t),
  .use (.tp t),
  .choose (block [.use (.tp t), .unlock (.tp t), .ret true]) .act,
  .choose (freshConn t) .act,
  .use (.tp t),
  .loop (block [.wait (.tp t),
    .choose (block [.use (.tp t), .unlock (.tp t), run mylog, .act, .ret false]) .act,
    .use (.tp t)]),
  .use (.tp t),
  .choose (block [.use (.tp t), .unlock (.tp t), .ret true]) .act,
  freshConn t]

/-- From the label `end`. -/
def tpSendMailEnd (t : ℕ) (ret : Bool) : Fn :=
  block [.lock (.tp t), .use (.tp t), .unlock (.tp t), .act, .ret ret]

def tpSendMail (t : ℕ) : Fn := block [
  must (getAnIdleConn t),
  .act,
  .choose (.call smtpRSET .act (tpSendMailEnd t false)) .act,
  .call smtpMAILFROM (.call smtpRCPTTO (.call smtpDATA (block [.act,
    .choose (tpSendMailEnd t true) .act,
    .choose .act .act,
    .lock (.tp t), .use (.tp t), .unlock (.tp t), .act, .act, .ret true]) .act) .act) .act,
  tpSendMailEnd t false]

def abortTpConns (t : ℕ) : Fn := block [
  .lock (.tp t),
  .use (.tp t),
  .loop (block [.wait (.tp t), .use (.tp t)]),
  .use (.tp t), .use (.tp t),
  .loop (block [.wait (.tp t), .use (.tp t)]),
  .unlock (.tp t),
  .ret true]

def abortTransportsConns : Fn := run (dllistVisit abortTpConns)

def freeTp : Fn := block [.act, .ret true]

def freeTransports : Fn := block [run (dllistVisit fun _ => freeTp), .loop .act]

def reportTp (t : ℕ) : Fn := block [.lock (.tp t), .use (.tp t), .act, .unlock (.tp t), .ret true]

def resetTpTodaySendCounter (t : ℕ) : Fn :=
  block [.lock (.tp t), .use (.tp t), .unlock (.tp t), .ret true]

def resetTodaySendCounter : Fn := block [
  .lock .transportsMtx,
  run (dllistVisit resetTpTodaySendCounter),
  .unlock .transportsMtx]

/-- The timer, which starts a thread whenever it expires. -/
def initTodaySendResetTimer : Fn := block [.act, .fork (.loop (.fork resetTodaySendCounter))]

/-! ## client.c, report.c -/

def newCl : Fn := block [.act, .call pthread_dllistAppend .act (block [.act, .ret false]), .ret true]

def abortCl : Fn := block [.act, .ret true]

def abortClients : Fn := block [
  run (pthread_dllistVisit abortCl),
  .lock .clients,
  .use .clients,
  .loop (block [.wait .clients, .use .clients]),
  .unlock .clients]

def sendMail : Fn := block [
  .choose .act (.ret false),  -- `prepareSendMail`
  .choose (block [.act, .ret false]) .act,  -- `findTpByName`
  .any fun t => .call (tpSendMail t) .act (block [.act, .ret false]),
  .act]

def freeCl : Fn := block [.act, run pthread_dllistDelete, .act]

/-- `pthread_exit` with the handlers pushed, called or made by a cancellation. -/
def cleanUp : Fn := block [.act, run freeCl, .exit]

/-- `handleClient` with a complete message, its cancellation disabled. -/
def message : Fn := block [.act,
  -- check if blocked
  .lock .blockMtx, .use .blockMtx,
  .loop (block [.wait .blockMtx, .use .blockMtx]),
  .unlock .blockMtx,
  -- send email
  .act, run sendMail,
  .choose (block [run mylog, cleanUp]) .act,
  .act]

def handleClient : Fn := block [.act, .act, .forever (block [
  .cancel cleanUp,  -- in `poll`
  .choose cleanUp .act,
  .choose (block [run (mylogCancel cleanUp), cleanUp]) .act,
  .choose
    (block [
      .cancel cleanUp,  -- in `read`
      .choose cleanUp .act,
      .act,
      .choose message .act])
    (block [.act, .cancel .exit, cleanUp])])]  -- in `close`, the handlers popped

def blockClients : Fn := block [.lock .blockMtx, .use .blockMtx, .unlock .blockMtx]

def unblockClients : Fn := block [.lock .blockMtx, .use .blockMtx, .unlock .blockMtx, .act]

def collectReport : Fn := block [.act,
  run pthread_dllistCountNodes,
  .act,
  .lock .transportsMtx,
  .act,
  run (dllistVisit reportTp),
  .unlock .transportsMtx]

/-! ## main.c -/

def monitor : Fn := .forever (block [
  .cancel .exit,  -- in `accept`
  .choose (.choose .act (.choose (run (mylogCancel .exit))
    (block [.act, run (mylogCancel .exit), .cancel .exit, .exit]))) .act,
  .choose (block [run collectReport, .cancel .exit, .cancel .exit]) .act])  -- in `write` and `close`

def reloadConfig : Fn := block [
  run mylog, run mylog, run blockClients, run mylog,
  run mylog, run abortTransportsConns, run mylog,
  run mylog, run freeTransports, run mylog,
  run (loadTpConfig false),
  run mylog, run unblockClients, run mylog, run mylog, .act]

/-- The loop as a function of its own, which the `break` leaves. -/
def acceptLoop : Fn := .loop (block [.act,
  .choose (.choose .act (.choose (run mylog) (block [.act, run mylog, .act]))) .act,
  .choose (.ret true) .act,
  .choose (run reloadConfig)
    (.choose (.call newCl (.fork handleClient) .act) .act)])

def mainLoop : Fn := block [.act, .act,
  run mylog, .fork monitor, run mylog,
  run mylog, run initTodaySendResetTimer, run mylog,
  run mylog,
  run acceptLoop,
  -- cleanup
  run mylog, run mylog, .act, .await, run mylog,
  .act, .act, .act,
  run mylog, run abortClients, run mylog,
  run mylog, run abortTransportsConns, run mylog,
  run mylog, run freeTransports, run mylog,
  .act, .act, .act,
  run mylog]

def tcpListen : Fn := block [.choose .halt .act,
  .loop (block [.choose .halt .act, .act]),
  .choose .halt .act, .choose .halt .act, .act, .ret true]

def main (testTp : Bool) : Fn := block [.act,
  .choose .halt .act,
  .act,
  run (loadTpConfig testTp),
  .act,
  run tcpListen, run tcpListen,
  .choose (block [run mainLoop, .halt]) .act,
  .choose (block [run mainLoop, .halt]) .act,
  .act,
  .halt]

/-! ## What each function keeps -/

section
variable {H : Set Mutex} {t : ℕ}

/-- Whoever does not have it may lock the log's mutex. -/
theorem lt_log (h : Mutex.log ∉ H) : ∀ x ∈ H, x.rank < Mutex.log.rank := by
  intro x hx
  cases x with
  | log => exact absurd hx h
  | tp t => exact Nat.one_lt_two
  | _ => decide

theorem mylog_keeps (h : Mutex.log ∉ H) : Keeps Mutex.rank H mylog :=
  keeps_section [.act] [use Mutex.log, use Mutex.log] [.act] (lt_log h) (by simp [Plain])
    (by simp [Plain]) (by simp [Plain])

theorem mylogCancel_keeps {handlers : Fn} (hs : Keeps Mutex.rank ∅ handlers) :
    Keeps Mutex.rank ∅ (mylogCancel handlers) :=
  keeps_section_empty [.act] [use Mutex.log, .cancel handlers, use Mutex.log, .cancel handlers]
    [.cancel handlers] (by simp [Plain]) (by simp [Plain, hs]) (by simp [Plain, hs])

theorem smtpWrite_keeps (h : Mutex.log ∉ H) : Keeps Mutex.rank H smtpWrite := by
  refine Plain.keeps ?_
  simp [smtpWrite, fail, Plain, mylog_keeps h]

theorem smtpExpect_keeps (h : Mutex.log ∉ H) : Keeps Mutex.rank H smtpExpect := by
  refine Plain.keeps ?_
  simp [smtpExpect, fail, Plain, mylog_keeps h]

theorem tcpConnect_keeps (h : Mutex.log ∉ H) : Keeps Mutex.rank H tcpConnect := by
  refine Plain.keeps ?_
  simp [tcpConnect, fail, Plain, mylog_keeps h]

theorem smtpSSLConnect_keeps (h : Mutex.log ∉ H) : Keeps Mutex.rank H smtpSSLConnect := by
  refine Plain.keeps ?_
  simp [smtpSSLConnect, fail, Plain, mylog_keeps h]

theorem smtpEHLO_keeps (h : Mutex.log ∉ H) : Keeps Mutex.rank H smtpEHLO := by
  refine Plain.keeps ?_
  simp [smtpEHLO, must, both, Plain, smtpWrite_keeps h, smtpExpect_keeps h, smtpSSLConnect_keeps h]

theorem smtpAuth_keeps (h : Mutex.log ∉ H) : Keeps Mutex.rank H smtpAuth := by
  refine Plain.keeps ?_
  simp [smtpAuth, must, Plain, smtpWrite_keeps h, smtpExpect_keeps h]

theorem smtpRCPTTO_keeps (h : Mutex.log ∉ H) : Keeps Mutex.rank H smtpRCPTTO := by
  refine Plain.keeps ?_
  simp [smtpRCPTTO, Plain, smtpWrite_keeps h, smtpExpect_keeps h]

theorem smtpDATA_keeps (h : Mutex.log ∉ H) : Keeps Mutex.rank H smtpDATA := by
  refine Plain.keeps ?_
  simp [smtpDATA, must, Plain, smtpWrite_keeps h, smtpExpect_keeps h]

theorem smtpRSET_keeps (h : Mutex.log ∉ H) : Keeps Mutex.rank H smtpRSET := by
  refine Plain.keeps ?_
  simp [smtpRSET, must, Plain, smtpWrite_keeps h, smtpExpect_keeps h]

/-- `smtpNOOP`, `smtpQUIT` and the end of `smtpMAILFROM` -/
theorem both_keeps (h : Mutex.log ∉ H) : Keeps Mutex.rank H (both smtpWrite smtpExpect) := by
  refine Plain.keeps ?_
  simp [both, Plain, smtpWrite_keeps h, smtpExpect_keeps h]

theorem smtpMAILFROM_keeps (h : Mutex.log ∉ H) : Keeps Mutex.rank H smtpMAILFROM := both_keeps h

theorem dllistVisit_keeps {nodeHandler : ℕ → Fn} (h : ∀ t, Keeps Mutex.rank H (nodeHandler t)) :
    Keeps Mutex.rank H (dllistVisit nodeHandler) := by
  refine Plain.keeps ?_
  simp [dllistVisit, Plain, h]

theorem pthread_dllistAppend_keeps : Keeps Mutex.rank ∅ pthread_dllistAppend := by
  simp [pthread_dllistAppend, Keeps, Leads]

theorem pthread_dllistDelete_keeps : Keeps Mutex.rank ∅ pthread_dllistDelete := by
  simp [pthread_dllistDelete, Keeps, Leads]

theorem pthread_dllistVisit_keeps {nodeHandler : Fn} (h : Keeps Mutex.rank {.clients} nodeHandler) :
    Keeps Mutex.rank ∅ (pthread_dllistVisit nodeHandler) := by
  have hloop : Keeps Mutex.rank {.clients}
      (.loop (block [.call nodeHandler .act (.ret true), .use .clients])) :=
    Plain.keeps (by simp [Plain, h])
  simp only [pthread_dllistVisit, Keeps, Leads, wp_block_cons, wp_act, wp_lock_empty, wp_use_single]
  exact wp_run hloop (by simp)

theorem pthread_dllistCountNodes_keeps : Keeps Mutex.rank ∅ pthread_dllistCountNodes := by
  simp [pthread_dllistCountNodes, Keeps, Leads]

/-! ### transport.c -/

theorem tpIniHandler_keeps (h : Mutex.log ∉ H) : Keeps Mutex.rank H tpIniHandler := by
  refine Plain.keeps ?_
  simp [tpIniHandler, Plain, mylog_keeps h]

theorem checkTp_keeps (h : Mutex.log ∉ H) : Keeps Mutex.rank H checkTp := by
  refine Plain.keeps ?_
  simp [checkTp, check, Plain, mylog_keeps h]

theorem printTp_keeps (h : Mutex.log ∉ H) : Keeps Mutex.rank H printTp := by
  refine Plain.keeps ?_
  simp [printTp, Plain, mylog_keeps h]

theorem doTestTp_keeps (h : Mutex.log ∉ H) : Keeps Mutex.rank H doTestTp := by
  refine Plain.keeps ?_
  simp [doTestTp, Plain, mylog_keeps h, tcpConnect_keeps h, smtpEHLO_keeps h, smtpAuth_keeps h, smtpQUIT,
    both_keeps h]

theorem loadTpConfig_keeps (testTp : Bool) : Keeps Mutex.rank ∅ (loadTpConfig testTp) := by
  have h : Mutex.log ∉ ({.transportsMtx} : Set Mutex) := by simp
  have hcheck := dllistVisit_keeps fun _ => checkTp_keeps h
  have hprint := dllistVisit_keeps fun _ => printTp_keeps h
  have htest := dllistVisit_keeps fun _ => doTestTp_keeps h
  refine keeps_section_empty [] [run mylog, .loop (run tpIniHandler), check,
    run (dllistVisit fun _ => checkTp), run mylog, run (dllistVisit fun _ => printTp),
    if testTp then block [run (dllistVisit fun _ => doTestTp), .halt] else .act] [] (by simp) ?_ (by simp)
  cases testTp with
  | true => simp [Plain, check, mylog_keeps h, tpIniHandler_keeps h, hcheck, hprint, htest]
  | false => simp [Plain, check, mylog_keeps h, tpIniHandler_keeps h, hcheck, hprint]

theorem endConn_leads (t : ℕ) (hasTpLock : Bool) :
    Leads Mutex.rank (endConn t hasTpLock) (if hasTpLock then {.tp t} else ∅) ∅ := by
  cases hasTpLock with
  | true => simp [endConn, Leads]
  | false => simp [endConn, Leads]

theorem connNOOP_keeps (t : ℕ) : Keeps Mutex.rank ∅ (connNOOP t) := by
  have hnoop : Keeps Mutex.rank ∅ smtpNOOP := both_keeps (by simp)
  have hlocked := endConn_leads t true
  have hfree := endConn_leads t false
  simp only [connNOOP, Keeps, Leads, wp_block_cons, wp_block_nil, wp_act, wp_forever, wp_loop, wp_choose,
    wp_lock_empty, wp_wait_single, wp_use_single, wp_unlock_single, wp_exit, true_and]
  refine ⟨wp_run hlocked rfl, wp_call hnoop ?_ (wp_run hfree rfl)⟩
  refine ⟨wp_run hfree rfl, wp_act.2 (wp_lock_empty.2 ?_)⟩
  exact wp_use_single.2 ⟨wp_run hlocked rfl, wp_use_single.2 (wp_unlock_single.2 rfl)⟩

/-- A new connection, with the lists locked; its thread starts with no mutex. -/
theorem newConn_keeps (t : ℕ) : Keeps Mutex.rank {.tp t} (newConn t) := by
  have h : Mutex.log ∉ ({.tp t} : Set Mutex) := by simp
  refine Plain.keeps ?_
  simp [newConn, Plain, mylog_keeps h, tcpConnect_keeps h, smtpEHLO_keeps h, smtpAuth_keeps h,
    connNOOP_keeps]

theorem getAnIdleConn_keeps (t : ℕ) : Keeps Mutex.rank ∅ (getAnIdleConn t) := by
  have hlog : Keeps Mutex.rank ∅ mylog := mylog_keeps (by simp)
  have hfresh : ∀ {Q : Set Mutex → Prop}, wp Mutex.rank (freshConn t) {.tp t} Q fun _ h => h = ∅ := by
    intro Q
    refine wp_call (newConn_keeps t) ?_ ?_
    · simp
    · simp
  simp only [getAnIdleConn, Keeps, Leads, wp_block_cons, wp_block_nil, wp_act, wp_loop, wp_choose,
    wp_lock_empty, wp_wait_single, wp_use_single, wp_unlock_single, wp_ret, true_and, and_true]
  exact ⟨hfresh, wp_run hlog rfl, hfresh⟩

theorem tpSendMailEnd_keeps (t : ℕ) (ret : Bool) : Keeps Mutex.rank ∅ (tpSendMailEnd t ret) := by
  simp [tpSendMailEnd, Keeps, Leads]

theorem tpSendMail_keeps (t : ℕ) : Keeps Mutex.rank ∅ (tpSendMail t) := by
  have h : Mutex.log ∉ (∅ : Set Mutex) := by simp
  have hend := tpSendMailEnd_keeps t
  have hidle : Keeps Mutex.rank ∅ (block [.lock (.tp t), .use (.tp t), .unlock (.tp t), .act, .act, .ret true]) := by
    simp [Keeps, Leads]
  have hsent : Keeps Mutex.rank ∅ (block [.act, .choose (tpSendMailEnd t true) .act, .choose .act .act,
      .lock (.tp t), .use (.tp t), .unlock (.tp t), .act, .act, .ret true]) :=
    .seq rfl (.seq (.choose (hend true) rfl) (.seq (.choose rfl rfl) hidle))
  refine Keeps.seq (.call (getAnIdleConn_keeps t) rfl rfl) (.seq rfl (.seq ?_ (.seq ?_ (hend false))))
  · exact .choose (.call (smtpRSET_keeps h) rfl (hend false)) rfl
  · exact .call (smtpMAILFROM_keeps h) (.call (smtpRCPTTO_keeps h)
      (.call (smtpDATA_keeps h) hsent rfl) rfl) rfl

theorem abortTpConns_keeps (t : ℕ) : Keeps Mutex.rank ∅ (abortTpConns t) := by
  simp [abortTpConns, Keeps, Leads]

theorem abortTransportsConns_keeps : Keeps Mutex.rank ∅ abortTransportsConns :=
  wp_run (dllistVisit_keeps abortTpConns_keeps) rfl

theorem freeTransports_keeps : Keeps Mutex.rank H freeTransports := by
  have hfree : Keeps Mutex.rank H (dllistVisit fun _ => freeTp) := by
    refine dllistVisit_keeps fun _ => Plain.keeps ?_
    simp [freeTp, Plain]
  refine Plain.keeps ?_
  simp [freeTransports, Plain, hfree]

/-- The visits under `transportsMtx` may lock the mutex of a transport. -/
theorem lt_tp (t : ℕ) : ∀ x ∈ ({.transportsMtx} : Set Mutex), x.rank < (Mutex.tp t).rank := by
  rintro _ rfl
  exact Nat.zero_lt_one

theorem reportTp_keeps (t : ℕ) : Keeps Mutex.rank {.transportsMtx} (reportTp t) :=
  keeps_section [] [use (Mutex.tp t), .act] [.ret true] (lt_tp t) (by simp) (by simp [Plain]) (by simp [Plain])

theorem resetTpTodaySendCounter_keeps (t : ℕ) :
    Keeps Mutex.rank {.transportsMtx} (resetTpTodaySendCounter t) :=
  keeps_section [] [use (Mutex.tp t)] [.ret true] (lt_tp t) (by simp) (by simp [Plain]) (by simp [Plain])

theorem resetTodaySendCounter_keeps : Keeps Mutex.rank ∅ resetTodaySendCounter := by
  have hvisit := dllistVisit_keeps resetTpTodaySendCounter_keeps
  exact keeps_section_empty [] [run (dllistVisit resetTpTodaySendCounter)] [] (by simp) (by simp [hvisit])
    (by simp)

theorem initTodaySendResetTimer_keeps : Keeps Mutex.rank H initTodaySendResetTimer := by
  have htimer : Keeps Mutex.rank ∅ (.loop (.fork resetTodaySendCounter)) :=
    Plain.keeps resetTodaySendCounter_keeps
  refine Plain.keeps ?_
  simp [initTodaySendResetTimer, Plain, htimer]

/-! ### client.c, report.c -/

theorem newCl_keeps : Keeps Mutex.rank ∅ newCl := by
  refine Plain.keeps ?_
  simp [newCl, Plain, pthread_dllistAppend_keeps]

theorem abortClients_keeps : Keeps Mutex.rank ∅ abortClients := by
  have habort : Keeps Mutex.rank {.clients} abortCl := Plain.keeps (by simp [abortCl, Plain])
  refine Keeps.seq (wp_run (pthread_dllistVisit_keeps habort) rfl) ?_
  change Keeps Mutex.rank ∅
    (block [.lock .clients, .use .clients, .loop (block [.wait .clients, .use .clients]), .unlock .clients])
  simp [Keeps, Leads]

theorem sendMail_keeps : Keeps Mutex.rank ∅ sendMail := by
  refine Plain.keeps ?_
  simp [sendMail, Plain, tpSendMail_keeps]

theorem freeCl_keeps : Keeps Mutex.rank ∅ freeCl := by
  refine Plain.keeps ?_
  simp [freeCl, Plain, pthread_dllistDelete_keeps]

theorem cleanUp_keeps : Keeps Mutex.rank ∅ cleanUp := by
  refine Plain.keeps ?_
  simp [cleanUp, Plain, freeCl_keeps]

theorem message_keeps : Keeps Mutex.rank ∅ message := by
  have hlog : Keeps Mutex.rank ∅ mylog := mylog_keeps (by simp)
  refine keeps_section_empty [.act]
    [use Mutex.blockMtx, .loop (block [.wait Mutex.blockMtx, use Mutex.blockMtx])]
    [.act, run sendMail, .choose (block [run mylog, cleanUp]) .act, .act] (by simp [Plain]) ?_ ?_
  · simp [Plain]
  · simp [Plain, cleanUp, hlog, freeCl_keeps, sendMail_keeps]

theorem handleClient_keeps : Keeps Mutex.rank ∅ handleClient := by
  have hclean := cleanUp_keeps
  have hlog : Keeps Mutex.rank ∅ (mylogCancel cleanUp) := mylogCancel_keeps hclean
  have hcancel : Keeps Mutex.rank ∅ (.cancel cleanUp) := keeps_cancel.2 hclean
  have hfail : Keeps Mutex.rank ∅ (.choose (block [run (mylogCancel cleanUp), cleanUp]) .act) :=
    .choose (.seq (wp_run hlog rfl) (.seq hclean rfl)) rfl
  have hread : Keeps Mutex.rank ∅ (block [.cancel cleanUp, .choose cleanUp .act, .act, .choose message .act]) :=
    .seq hcancel (.seq (.choose hclean rfl) (.seq rfl (.seq (.choose message_keeps rfl) rfl)))
  have hend : Keeps Mutex.rank ∅ (block [.act, .cancel .exit, cleanUp]) :=
    .seq rfl (.seq (keeps_cancel.2 rfl) (.seq hclean rfl))
  have hloop := Keeps.seq hcancel
    (.seq (hclean.choose keeps_act) (.seq hfail (.seq (hread.choose hend) keeps_act)))
  exact Keeps.seq rfl (.seq rfl (.seq hloop.forever rfl))

theorem collectReport_keeps : Keeps Mutex.rank ∅ collectReport := by
  have hvisit := dllistVisit_keeps reportTp_keeps
  refine keeps_section_empty [.act, run pthread_dllistCountNodes, .act]
    [.act, run (dllistVisit reportTp)] [] ?_ ?_ (by simp)
  · simp [Plain, pthread_dllistCountNodes_keeps]
  · simp [Plain, hvisit]

/-! ### main.c -/

theorem monitor_keeps : Keeps Mutex.rank ∅ monitor := by
  have hexit : Keeps Mutex.rank ∅ (.exit : Fn) := rfl
  have hlog : Keeps Mutex.rank ∅ (mylogCancel .exit) := mylogCancel_keeps hexit
  refine Plain.keeps ?_
  simp [monitor, Plain, hlog, hexit, collectReport_keeps]

theorem blockClients_keeps : Keeps Mutex.rank ∅ blockClients := by
  simp [blockClients, Keeps, Leads]

theorem unblockClients_keeps : Keeps Mutex.rank ∅ unblockClients := by
  simp [unblockClients, Keeps, Leads]

theorem reloadConfig_keeps : Keeps Mutex.rank ∅ reloadConfig := by
  have hlog : Keeps Mutex.rank ∅ mylog := mylog_keeps (by simp)
  refine Plain.keeps ?_
  simp [reloadConfig, Plain, hlog, blockClients_keeps, abortTransportsConns_keeps, freeTransports_keeps,
    loadTpConfig_keeps, unblockClients_keeps]

theorem acceptLoop_keeps : Keeps Mutex.rank ∅ acceptLoop := by
  have hlog : Keeps Mutex.rank ∅ mylog := mylog_keeps (by simp)
  refine Plain.keeps ?_
  simp [acceptLoop, Plain, hlog, reloadConfig_keeps, newCl_keeps, handleClient_keeps]

theorem mainLoop_keeps : Keeps Mutex.rank ∅ mainLoop := by
  have hlog : Keeps Mutex.rank ∅ mylog := mylog_keeps (by simp)
  refine Plain.keeps ?_
  simp [mainLoop, Plain, hlog, monitor_keeps, initTodaySendResetTimer_keeps, acceptLoop_keeps,
    abortClients_keeps, abortTransportsConns_keeps, freeTransports_keeps]

theorem main_keeps (testTp : Bool) : Keeps Mutex.rank ∅ (main testTp) := by
  have hlisten : Keeps Mutex.rank ∅ tcpListen := Plain.keeps (by simp [tcpListen, Plain])
  refine Plain.keeps ?_
  simp [main, Plain, loadTpConfig_keeps, hlisten, mainLoop_keeps]

theorem rank_le (m : Mutex) : m.rank ≤ 2 := by
  cases m with
  | tp t => exact Nat.le_succ 1
  | _ => decide

/-- **The mutexes of the program.**  In every run of the process, whichever threads take
    turns, in which no cancellation acts on a thread that has a mutex: whoever has a mutex
    can go on, or waits for a mutex, and along those who wait there is one in the end who
    can go on; no thread sleeps, waits for another or ends with a mutex; who uses the lists
    and counters of a transport, the links of the clients' list, `blocked` or the log has
    their mutex; and no step unlocks a mutex that its thread does not have. -/
theorem mutexes_ordered (testTp : Bool) {p : List (State Mutex × Act)} {s : State Mutex}
    (h : Runs.Path State.step (State.start (main testTp)) p s) (hC : ∀ x ∈ p, ¬ x.1.Interrupts x.2)
    (hended : s.ended = false) :
    (∀ m i, s.owner m = some i → ∃ j, Relation.ReflTransGen s.Waits i j ∧ s.Goes j) ∧
    (∀ (i : ℕ) (t : Thread Mutex), s.threads[i]? = some t → t.idle → ∀ m, s.owner m ≠ some i) ∧
    (∀ i m k fs, s.threads[i]? = some (.run (.use m :: k) fs) → s.owner m = some i) ∧
    ∀ i k fs, s.threads[i]? = some (.run k fs) → ¬ (k = [] ∧ fs = []) →
      s.Goes i ∨ ∃ j, s.Waits i j := by
  have hI := State.inv_of_path (main_keeps testTp) h hC
  refine ⟨fun m i hown => hI.chain hended rank_le hown, fun i t ht hidle m hown => ?_, ?_, ?_⟩
  · have hm : m ∈ s.held i := hown
    rw [hI.held_idle ht hidle] at hm
    cases hm
  · exact fun i m k fs ht => hI.guarded ht
  · exact fun i k fs ht hne => hI.goes_or_waits hended ht hne

end

/-! ## Runs -/

/-- The mutex that a thread is about to lock. -/
def toLock : Thread Mutex → Option Mutex
  | .run (.lock m :: _) _ => some m
  | _ => none

/-- At a point where a cancellation can act. -/
def cancellable : Thread Mutex → Bool
  | .run (.cancel _ :: _) _ => true
  | _ => false

/-- No cancellation acts. -/
def spares (s : State Mutex) : Act → Bool
  | .go i c => c = 0 || !s.threads[i]?.any cancellable
  | .wake _ => true

theorem not_interrupts {s : State Mutex} {a : Act} (h : spares s a = true) : ¬ s.Interrupts a := by
  cases a with
  | wake i => exact id
  | go i c =>
    rintro ⟨hc, ⟨b, k, fs, ht⟩, -⟩
    simp [spares, ht, hc, cancellable] at h

theorem waits_of_toLock {s : State Mutex} {i j : ℕ} {m : Mutex} (hi : s.threads[i]?.bind toLock = some m)
    (hj : s.owner m = some j) : s.Waits i j := by
  obtain ⟨t, ht, hm⟩ := Option.bind_eq_some_iff.1 hi
  match t with
  | .run (.lock m' :: k) fs =>
    obtain rfl := Option.some.inj hm
    exact ⟨m', k, fs, ht, hj⟩

/-- Turns of one thread after another: how many, whose, and the choice in them. -/
def turns (l : List (ℕ × ℕ × ℕ)) : List Act := l.flatMap fun x => List.replicate x.1 (.go x.2.1 x.2.2)

/-- From `main` to the loop of `mainLoop`, with the monitor and the timer started. -/
def startUp : List (ℕ × ℕ × ℕ) :=
  [(29, 0, 1), (2, 0, 0), (7, 0, 1), (42, 0, 0), (3, 0, 1), (2, 0, 0), (16, 0, 1), (2, 0, 0), (11, 0, 1),
    (105, 0, 0)]

/-- A client is accepted and has locked the transport 7 for its mail, the monitor visits
    that transport for its report, and a reload comes to `loadTpConfig`. -/
def busy : List (ℕ × ℕ × ℕ) := startUp ++
  [(11, 0, 1), (15, 0, 0), (13, 0, 1),
    (9, 3, 0), (6, 3, 1), (4, 3, 0), (5, 3, 1), (19, 3, 0), (3, 3, 1), (7, 3, 7),
    (4, 1, 0), (3, 1, 1), (27, 1, 0), (1, 1, 1), (3, 1, 7),
    (10, 0, 1), (163, 0, 0)]

/-- The main thread waits for the monitor, and the monitor for the client. -/
theorem mutexes_ordered_busy : ∃ p s, Runs.Path State.step (State.start (main false)) p s ∧
    s.Waits 0 1 ∧ s.Waits 1 3 ∧ ∃ j, Relation.ReflTransGen s.Waits 1 j ∧ s.Goes j := by
  have h : ((Runs.exec State.step (State.start (main false)) (turns busy)).map fun s =>
      (s.ended, s.owner .transportsMtx, s.owner (.tp 7), s.threads[0]?.bind toLock,
        s.threads[1]?.bind toLock)) =
      some (false, some 1, some 3, some .transportsMtx, some (.tp 7)) := by decide +kernel
  obtain ⟨s, hs, hval⟩ := Option.map_eq_some_iff.1 h
  simp only [Prod.mk.injEq] at hval
  obtain ⟨hended, htable, htp, hmain, hmonitor⟩ := hval
  have hfree : (Runs.trace State.step (State.start (main false)) (turns busy)).all
      (fun x => spares x.1 x.2) = true := by decide +kernel
  have hC : ∀ x ∈ Runs.trace State.step (State.start (main false)) (turns busy), ¬ x.1.Interrupts x.2 :=
    fun x hx => not_interrupts (List.all_eq_true.1 hfree x hx)
  have hall := mutexes_ordered false (Runs.Path.trace hs) hC hended
  exact ⟨_, s, Runs.Path.trace hs, waits_of_toLock hmain htable, waits_of_toLock hmonitor htp,
    hall.1 .transportsMtx 1 htable⟩

/-- The process quits while the monitor logs that `accept` has failed. -/
def quitting : List (ℕ × ℕ × ℕ) :=
  startUp ++ [(40, 0, 0), (5, 1, 0), (1, 1, 1), (9, 1, 0), (2, 1, 1), (6, 0, 0)]

/-- **What a cancellation in `mylog` does**: the monitor has ended with the mutex of
    the log, and the main thread waits for it. -/
theorem log_taken_along : ∃ s, Runs.Reach State.step (State.start (main false)) s ∧
    s.owner .log = some 1 ∧ s.Waits 0 1 ∧ s.threads[1]?.map Thread.idle = some true := by
  have h : ((Runs.exec State.step (State.start (main false)) (turns quitting)).map fun s =>
      (s.owner .log, s.threads[0]?.bind toLock, s.threads[1]?.map Thread.idle)) =
      some (some 1, some .log, some true) := by decide +kernel
  obtain ⟨s, hs, hval⟩ := Option.map_eq_some_iff.1 h
  simp only [Prod.mk.injEq] at hval
  obtain ⟨hlog, hmain, hidle⟩ := hval
  exact ⟨s, Runs.Reach.refl.of_exec hs, hlog, waits_of_toLock hmain hlog, hidle⟩

end LockOrder

end SmtpProxy
