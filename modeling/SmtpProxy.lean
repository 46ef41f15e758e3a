import SmtpProxy.Lib.Runs
import SmtpProxy.Lib.Search
import SmtpProxy.Lib.CString
import SmtpProxy.Lib.Placement
import SmtpProxy.Transport
import SmtpProxy.Envelope
import SmtpProxy.Framing
import SmtpProxy.Smtp
import SmtpProxy.Dialogue
import SmtpProxy.Replies
import SmtpProxy.SendMail
import SmtpProxy.Smuggling
import SmtpProxy.Pool.State
import SmtpProxy.Pool.Views
import SmtpProxy.Pool.Trans
import SmtpProxy.Pool.Invariant
import SmtpProxy.Pool.Bound
import SmtpProxy.Pool.Exclusion
import SmtpProxy.Pool.Drain
import SmtpProxy.Pool.Idle
import SmtpProxy.Pool.Threads
import SmtpProxy.Reload.State
import SmtpProxy.Reload.Aim
import SmtpProxy.Reload.Barrier
import SmtpProxy.Pool.Wakeup
import SmtpProxy.Pool.Lifetime
import SmtpProxy.DailyCounter
import SmtpProxy.MainLoop
import SmtpProxy.Config
import SmtpProxy.Table
import SmtpProxy.Ops
import SmtpProxy.Recipients
import SmtpProxy.ReplyLine
import SmtpProxy.Transparency
import SmtpProxy.Pool.Needs
import SmtpProxy.Wire
import SmtpProxy.Discipline
import SmtpProxy.Lib.Logs
import SmtpProxy.Pool.Life
import SmtpProxy.Pool.Limits
import SmtpProxy.Secrecy
import SmtpProxy.CommandLines
import SmtpProxy.Lib.Ledger
import SmtpProxy.Resources
import SmtpProxy.Clients
import SmtpProxy.Lib.DList
import SmtpProxy.Lib.Heap
import SmtpProxy.Lib.Replace
import SmtpProxy.Pool.Expiry
import SmtpProxy.PthreadDllist.Chain
import SmtpProxy.PthreadDllist.Expiry
import SmtpProxy.PthreadDllist.Visit
import SmtpProxy.SendRawMail
import SmtpProxy.PthreadDllist.Owner
import SmtpProxy.Base64
import SmtpProxy.Dllist.Transports
import SmtpProxy.Lib.Keyed
import SmtpProxy.LoadConfig
import SmtpProxy.Report
import SmtpProxy.Lib.Lines
import SmtpProxy.Ini.Scan
import SmtpProxy.Ini.Parse
import SmtpProxy.Ini.Load
import SmtpProxy.Ini.Print
import SmtpProxy.Lib.Intake
import SmtpProxy.Mailbox
import SmtpProxy.Delivery
import SmtpProxy.Submission
import SmtpProxy.Lib.Locks
import SmtpProxy.LockOrder
import SmtpProxy.TestMode
import SmtpProxy.RcptList
import SmtpProxy.Pool.Memory
