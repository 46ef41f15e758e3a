/-
  What a transport's servers see: the pool of transport.c with the calls of
  smtp.c in it, one call a step.

  In `Pool` an exchange is a single step that succeeds or fails.  Here the
  threads that are in one make its calls one after another, each with whatever
  the network does in it (`CallIo`), and the pool moves on after the last.

  * `Line`: a connection, with the calls made on it and those still to come;
    `Line.call` makes the next one;
  * `Wire.clientStep`, `Wire.noopStep`: `newConn`, `tpSendMail` and `connNOOP`,
    with the exchanges they begin;
  * `calls_of_cmd`: what a command of smtp.c does in one go, its calls do too.
-/
import SmtpProxy.Ops
import SmtpProxy.Pool.Needs

namespace SmtpProxy

open CString

/-- What a call meets: the outcome of `send`, of `poll` and `recv`, and of
    `SSL_connect`, whichever it asks for, and what is in its error buffer. -/
structure CallIo where
  send : Send
  recv : Recv
  hand : Bool
  err : Bytes
  deriving DecidableEq

def CallIo.session (io : CallIo) (ssl : Bool) : Session := ⟨ssl, [io.send], [io.recv], [io.hand], io.err, []⟩

/-- A call that has been made, in a TLS session or not. -/
structure Entry where
  op : Op
  io : CallIo
  tls : Bool
  deriving DecidableEq

structure Line where
  ssl : Bool  -- `conn->ssl` is set
  todo : List Op
  trace : List Entry
  deriving DecidableEq

namespace Line

/-- A new socket. -/
def opened (ops : List Op) : Line := ⟨false, ops, []⟩

/-- The next exchange. -/
def begin (l : Line) (ops : List Op) : Line := { l with todo := ops }

/-- The next call; an exchange ends where one fails. -/
def call (io : CallIo) (l : Line) : Bool × Line :=
  match l.todo with
  | [] => (true, l)
  | o :: os =>
    match o.cmd (io.session l.ssl) with
    | (true, w) => (true, ⟨w.ssl, os, l.trace ++ [⟨o, io, l.ssl⟩]⟩)
    | (false, w) => (false, ⟨w.ssl, [], l.trace ++ [⟨o, io, l.ssl⟩]⟩)

/-- An exchange in one go. -/
def calls : List CallIo → Line → Bool × Line
  | [], l => (true, l)
  | io :: ios, l =>
    match l.call io with
    | (true, l) => calls ios l
    | (false, l) => (false, l)

end Line

/-- `fresh` is the connection that `newConn` sets up, `lines` are the
    connections of `pool.conns`, and `lost` those that `newConn` has given up. -/
structure Wire where
  pool : Pool
  fresh : Line
  lines : List Line
  lost : List Line
  deriving DecidableEq

namespace Wire

/-- What is scheduled, what the call meets that the thread makes, and the mail
    of the client.  The `ok` of an action counts where there is no call. -/
structure Act where
  act : Action
  io : CallIo
  toList : List Bytes
  data : Bytes

def init (n : ℕ) : Wire := ⟨.init n, .opened [], [], []⟩

section
variable (s : Wire) (tp : Tp)

def get : Chan → Option Line
  | .fresh => some s.fresh
  | .conn c => s.lines[c]?

def put (ch : Chan) (l : Line) : Wire :=
  match ch with
  | .fresh => { s with fresh := l }
  | .conn c => { s with lines := s.lines.set c l }

/-- A step of the pool. -/
def sync (a : Action) : Option Wire := (s.pool.step tp a).map fun p => { s with pool := p }

/-- A call, and what the thread does when the exchange is over. -/
def exchange (ch : Chan) (io : CallIo) (done : Bool → Line → Option Wire) : Option Wire :=
  (s.get ch).bind fun l =>
    match l.call io with
    | (true, l) => if l.todo = [] then done true l else some (s.put ch l)
    | (false, l) => done false l

/-- `newConn` has set the connection up. -/
def added (l : Line) : Wire := { s with fresh := .opened [], lines := s.lines ++ [l] }

/-- `newConn` gives the connection up. -/
def failed (l : Line) : Wire := { s with fresh := .opened [], lost := s.lost ++ [l] }

/-- A step of the client `i`. -/
def clientStep (x : Act) (i : ℕ) (ok : Bool) : ClientPc → Option Wire
  | .connect => (if ok then s.put .fresh (.opened (ehloOps tp ++ authOps tp)) else s).sync tp (.client i ok)
  | .setup => s.exchange .fresh x.io fun ok l =>
    (if ok then s.added l else s.failed l).sync tp (.client i ok)
  | .got c isNew => (s.get (.conn c)).bind fun l =>
    (s.put (.conn c) (l.begin (if isNew then mailOps tp x.toList x.data else rsetOps))).sync tp
      (.client i ok)
  | .rset c => s.exchange (.conn c) x.io fun ok l =>
    (s.put (.conn c) (if ok then l.begin (mailOps tp x.toList x.data) else l)).sync tp (.client i ok)
  | .mail c => s.exchange (.conn c) x.io fun ok l => (s.put (.conn c) l).sync tp (.client i ok)
  | _ => s.sync tp (.client i ok)

/-- A step of the thread of the connection `c`. -/
def noopStep (x : Act) (c : ℕ) (ok : Bool) : NoopPc → Option Wire
  | .count => (s.get (.conn c)).bind fun l =>
    (s.put (.conn c) (l.begin noopOps)).sync tp (.noop c ok)
  | .noop => s.exchange (.conn c) x.io fun ok l => (s.put (.conn c) l).sync tp (.noop c ok)
  | _ => s.sync tp (.noop c ok)

end

def step (tp : Tp) (s : Wire) (x : Act) : Option Wire :=
  match x.act with
  | .client i ok => s.pool.clients[i]?.bind (s.clientStep tp x i ok)
  | .noop c ok => s.pool.conns[c]?.bind fun k => s.noopStep tp x c ok k.pc
  | a => s.sync tp a

end Wire

/-! ## Calls and commands -/

/-- What the next call on a session meets. -/
def Session.io (w : Session) : CallIo := ⟨w.nextSend.1, w.nextRecv.1, w.nextHand.1, w.err⟩

/-- The bytes of a read are all that is looked at, but for the error text. -/
theorem expectData_congr (code bs : Bytes) (w w' : Session) (hs : w'.ssl = w.ssl)
    (he : w'.err = w.err) : (expectData code bs w').1 = (expectData code bs w).1 ∧
      (expectData code bs w').2.err = (expectData code bs w).2.err := by
  unfold expectData Cmd.fail
  rw [hs]
  split_ifs
  · exact ⟨rfl, by rw [he]⟩
  · exact ⟨rfl, by rw [he]⟩
  · exact ⟨rfl, by rw [he]⟩
  · exact ⟨rfl, by rw [he]⟩

theorem smtpExpect_io (code : Bytes) (w : Session) :
    (smtpExpect code (w.io.session w.ssl)).1 = (smtpExpect code w).1 ∧
      (smtpExpect code (w.io.session w.ssl)).2.err = (smtpExpect code w).2.err := by
  obtain ⟨ssl, sends, recvs, hands, err, log⟩ := w
  rcases recvs with _ | ⟨_ | _ | _ | bs, rs⟩
  · exact ⟨rfl, rfl⟩
  · exact ⟨rfl, rfl⟩
  · exact ⟨rfl, rfl⟩
  · exact ⟨rfl, rfl⟩
  · exact expectData_congr code bs.1 ⟨ssl, sends, rs, hands, err, log⟩
      ⟨ssl, [(Session.nextSend ⟨ssl, sends, .data bs :: rs, hands, err, log⟩).1], [],
        [(Session.nextHand ⟨ssl, sends, .data bs :: rs, hands, err, log⟩).1], err, []⟩ rfl rfl

theorem smtpExpect_ssl (code : Bytes) (w : Session) : (smtpExpect code w).2.ssl = w.ssl := by
  obtain ⟨ssl, sends, recvs, hands, err, log⟩ := w
  rcases recvs with _ | ⟨_ | _ | _ | bs, rs⟩
  · rfl
  · rfl
  · rfl
  · rfl
  · rw [smtpExpect_data rfl]
    obtain ⟨b, err', h⟩ := expectData_frame code bs.1 ⟨ssl, sends, rs, hands, err, log⟩
    rw [h]
    rfl

/-- A call depends on what it meets and on nothing else. -/
theorem cmd_io (o : Op) (w : Session) : (o.cmd (w.io.session w.ssl)).1 = (o.cmd w).1 ∧
    (o.cmd (w.io.session w.ssl)).2.ssl = (o.cmd w).2.ssl := by
  cases o with
  | hand =>
    obtain ⟨ssl, sends, recvs, hands, err, log⟩ := w
    rcases hands with _ | ⟨_ | _, hs⟩
    · exact ⟨rfl, rfl⟩
    · exact ⟨rfl, rfl⟩
    · exact ⟨rfl, rfl⟩
  | write data =>
    exact ⟨by rw [Op.cmd, smtpWrite_result, smtpWrite_result]; rfl,
      (smtpWrite_ssl data _).trans (smtpWrite_ssl data w).symm⟩
  | expect code =>
    refine ⟨(smtpExpect_io code w).1, ?_⟩
    exact (smtpExpect_ssl code _).trans (smtpExpect_ssl code w).symm
  | either code code' =>
    obtain ⟨hok, herr⟩ := smtpExpect_io code w
    refine ⟨?_, ?_⟩
    · simp only [Op.cmd, Cmd.orCode]
      rcases h : smtpExpect code w with ⟨_ | _, w'⟩
      · rcases h' : smtpExpect code (w.io.session w.ssl) with ⟨_ | _, w''⟩
        · rw [h, h'] at herr
          dsimp only at herr ⊢
          rw [herr]
        · rw [h, h'] at hok
          cases hok
      · rcases h' : smtpExpect code (w.io.session w.ssl) with ⟨_ | _, w''⟩
        · rw [h, h'] at hok
          cases hok
        · rfl
    · simp only [Op.cmd, Cmd.orCode_snd]
      exact (smtpExpect_ssl code _).trans (smtpExpect_ssl code w).symm
  | fail text => exact ⟨rfl, rfl⟩

theorem Line.call_session (o : Op) (os : List Op) (w : Session) (tr : List Entry) :
    Line.call w.io ⟨w.ssl, o :: os, tr⟩ = ((o.cmd w).1,
      ⟨(o.cmd w).2.ssl, if (o.cmd w).1 then os else [], tr ++ [⟨o, w.io, w.ssl⟩]⟩) := by
  obtain ⟨hok, hssl⟩ := cmd_io o w
  rw [← hok, ← hssl]
  simp only [Line.call]
  rcases o.cmd (w.io.session w.ssl) with ⟨_ | _, w'⟩
  · rfl
  · rfl

/-- **Commands are their calls.**  What a list of calls does in one go on a
    session, a line can do call by call. -/
theorem calls_of_cmd (os : List Op) (w : Session) (tr : List Entry) : ∃ ios,
    (Line.calls ios ⟨w.ssl, os, tr⟩).1 = (runOps os w).1 ∧
    (Line.calls ios ⟨w.ssl, os, tr⟩).2.ssl = (runOps os w).2.ssl ∧
    (Line.calls ios ⟨w.ssl, os, tr⟩).2.todo = [] := by
  induction os generalizing w tr with
  | nil => exact ⟨[], rfl, rfl, rfl⟩
  | cons o os ih =>
    have hcall := Line.call_session o os w tr
    rcases ho : o.cmd w with ⟨_ | _, w'⟩
    · refine ⟨[w.io], ?_⟩
      simp [Line.calls, hcall, runOps, Cmd.and, ho]
    · obtain ⟨ios, h₁, h₂, h₃⟩ := ih w' (tr ++ [⟨o, w.io, w.ssl⟩])
      refine ⟨w.io :: ios, ?_⟩
      simp only [Line.calls, hcall, runOps, Cmd.and, ho]
      exact ⟨h₁, h₂, h₃⟩

end SmtpProxy
