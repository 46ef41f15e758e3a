/-
  The configuration of a transport (`tp_t`, transport.h) as `loadTpConfig`
  leaves it, and the look-up by name.

  The fields that change while the proxy runs (the connection lists, the lock
  and the counters) are those of `Pool`.
-/
import Mathlib.Data.Int.Notation
import SmtpProxy.Lib.CString

namespace SmtpProxy

open CString

/-- The items of transport.ini; the six strings are set (`checkTp`). -/
structure Tp where
  name : Bytes
  host : Bytes
  port : Bytes
  ssl : Bytes
  auth : Bytes
  username : Bytes
  password : Bytes
  maxConn : ℤ
  maxSendPerConn : ℤ
  sleepSecondsPerSend : ℤ
  maxNoop : ℤ
  sleepSecondsPerNoop : ℤ
  deriving DecidableEq

/-- `findTpByName`, visited over `transports`: the first transport of that name. -/
def findTpByName (transports : List Tp) (name : Bytes) : Option Tp :=
  transports.find? fun tp => strcmp tp.name name

/-- The transport `t`: one connection, without TLS and AUTH. -/
def tpPlain : Tp :=
  ⟨bytes "t", [], [], [], bytes "LOGIN", [], bytes "__OUR_SMTP_PROXY_SKIP_AUTH__", 1, 0, 0, 0, 0⟩

/-- With two connections. -/
def tpTwo : Tp := { tpPlain with maxConn := 2 }

end SmtpProxy
