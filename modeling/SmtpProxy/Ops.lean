/-
  The commands of smtp.c as lists of calls.

  All of them come down to the same few calls, one after another until one of
  them fails (`runOps`); `smtpEHLO_eq` and the theorems after it give the calls
  of each command, in which the text of everything that is written stands.

  * `implements_runOps`: the calls implement the dialogue of their steps.
-/
import SmtpProxy.Dialogue

namespace SmtpProxy

open CString

/-- One call. -/
inductive Op where
  | hand
  | write (data : Bytes)
  | expect (code : Bytes)
  | either (code code' : Bytes)
  | fail (text : Bytes)
  deriving DecidableEq

def Op.cmd : Op → Cmd
  | .hand => smtpSSLConnect
  | .write data => smtpWrite data
  | .expect code => smtpExpect code
  | .either code code' => (smtpExpect code).orCode code'
  | .fail text => .fail text

def runOps : List Op → Cmd
  | [] => .ok
  | o :: os => o.cmd.and (runOps os)

theorem Cmd.and_ok (f : Cmd) : f.and .ok = f := by
  ext1 w
  unfold Cmd.and Cmd.ok
  rcases f w with ⟨_ | _, w'⟩ <;> rfl

theorem Cmd.and_assoc (f g h : Cmd) : (f.and g).and h = f.and (g.and h) := by
  ext1 w
  unfold Cmd.and
  rcases f w with ⟨_ | _, w'⟩ <;> rfl

theorem runOps_append (os os' : List Op) : runOps (os ++ os') = (runOps os).and (runOps os') := by
  induction os with
  | nil => rfl
  | cons o os ih => rw [List.cons_append, runOps, ih, runOps, Cmd.and_assoc]

theorem runOps_ite (b : Bool) (os os' : List Op) :
    runOps (if b then os else os') = if b then runOps os else runOps os' := by
  cases b <;> rfl

/-! ## The calls of each command -/

def ehloOps (tp : Tp) : List Op :=
  (if strcmp tp.ssl (bytes "SSL") then [.hand] else []) ++ [.expect (bytes "220")] ++
    (if strcmp tp.ssl (bytes "TLS") then
      [.write (bytes "EHLO localhost\r\n"), .expect (bytes "250"),
        .write (bytes "STARTTLS\r\n"), .expect (bytes "220"), .hand] else []) ++
    [.write (bytes "EHLO localhost\r\n"), .expect (bytes "250")]

def authOps (tp : Tp) : List Op :=
  if strcmp tp.password (bytes "__OUR_SMTP_PROXY_SKIP_AUTH__") then []
  else if !strcmp tp.auth (bytes "LOGIN") then [.fail (bytes "500 unsupported smtp auth method\r\n")]
  else
    [.write (bytes "AUTH LOGIN\r\n"), .expect (bytes "334"),
      .write (base64_encode (cstr tp.username)), .expect (bytes "334"),
      .write (base64_encode (cstr tp.password)), .expect (bytes "235")]

def rcptOps (toList : List Bytes) : List Op :=
  toList.flatMap fun to_ => [.write (line1024 "RCPT TO:<" to_), .either (bytes "250") (bytes "251")]

def dataOps (data : Bytes) : List Op :=
  [.write (bytes "DATA\r\n"), .expect (bytes "354"), .write data, .expect (bytes "250")]

/-- The calls of a mail transaction. -/
def mailOps (tp : Tp) (toList : List Bytes) (data : Bytes) : List Op :=
  [.write (line1024 "MAIL FROM:<" tp.name), .expect (bytes "250")] ++ rcptOps toList ++ dataOps data

def rsetOps : List Op := [.write (bytes "RSET\r\n"), .either (bytes "250") (bytes "220")]

def noopOps : List Op := [.write (bytes "NOOP\r\n"), .expect (bytes "250")]

def quitOps : List Op := [.write (bytes "QUIT\r\n"), .expect (bytes "221")]

theorem smtpEHLO_eq (tp : Tp) : smtpEHLO tp = runOps (ehloOps tp) := by
  unfold ehloOps smtpEHLO
  simp only [runOps_append, runOps_ite, runOps, Cmd.and_ok, Op.cmd, Cmd.and_assoc]

theorem smtpAuth_eq (tp : Tp) : smtpAuth tp = runOps (authOps tp) := by
  unfold authOps smtpAuth
  simp only [runOps_ite, runOps, Cmd.and_ok, Op.cmd]

theorem rcptOps_cons (to_ : Bytes) (toList : List Bytes) : rcptOps (to_ :: toList) =
    [.write (line1024 "RCPT TO:<" to_), .either (bytes "250") (bytes "251")] ++ rcptOps toList := rfl

theorem smtpRCPTTO_eq (toList : List Bytes) : smtpRCPTTO toList = runOps (rcptOps toList) := by
  induction toList with
  | nil => rfl
  | cons to_ toList ih =>
    rw [smtpRCPTTO, ih, rcptOps_cons, runOps_append, rcptTo, orCode_and (by decide)]
    simp only [runOps, Cmd.and_ok, Op.cmd]

theorem smtpRSET_eq : smtpRSET = runOps rsetOps := by
  simp only [smtpRSET, rsetOps, runOps, Cmd.and_ok, Op.cmd]

theorem smtpNOOP_eq : smtpNOOP = runOps noopOps := by
  simp only [smtpNOOP, noopOps, runOps, Cmd.and_ok, Op.cmd]

theorem smtpQUIT_eq : smtpQUIT = runOps quitOps := by
  simp only [smtpQUIT, quitOps, runOps, Cmd.and_ok, Op.cmd]

/-! ## The dialogue of the calls -/

/-- The texts of the source that are lines. -/
def lineText (text : Bytes) : Bool :=
  text.getLast? == some 10 && !text.dropLast.contains 10 && !text.contains 0 &&
    text.length < errlen

/-- The step of a call. -/
def Op.step : Op → Step
  | .hand => .hand
  | .write data => .write (cstr data)
  | .expect code => .expect [code]
  | .either code code' => .expect [code, code']
  | .fail _ => .stop

/-- The call leaves lines, and no text of the proxy looks like its second code. -/
def Op.Proper : Op → Bool
  | .either _ code' => (cstr code').take 3 ≠ bytes "500"
  | .fail text => ownText text && lineText text
  | _ => true

theorem implements_op {o : Op} (h : o.Proper) : Implements o.cmd [o.step] := by
  cases o with
  | hand => exact implements_hand
  | write data => exact implements_write data
  | expect code => exact implements_expect code
  | either code code' => exact implements_expect_or (by simpa [Op.Proper] using h)
  | fail text => exact implements_fail (Bool.and_eq_true_iff.1 h).1

/-- **The calls implement their steps.** -/
theorem implements_runOps {os : List Op} (h : ∀ o ∈ os, o.Proper) :
    Implements (runOps os) (os.map Op.step) := by
  induction os with
  | nil => exact implements_ok
  | cons o os ih =>
    have ho := h o List.mem_cons_self
    have hos := ih fun o ho => h o (List.mem_cons_of_mem _ ho)
    exact (implements_op ho).and hos

theorem proper_ehlo (tp : Tp) : ∀ o ∈ ehloOps tp, o.Proper := by
  unfold ehloOps
  cases strcmp tp.ssl (bytes "SSL") <;> cases strcmp tp.ssl (bytes "TLS") <;> simp [Op.Proper]

theorem proper_auth (tp : Tp) : ∀ o ∈ authOps tp, o.Proper := by
  unfold authOps
  split_ifs
  · simp
  · intro o ho
    rw [List.mem_singleton.1 ho]
    rfl
  · simp [Op.Proper]

theorem proper_setup (tp : Tp) : ∀ o ∈ ehloOps tp ++ authOps tp, o.Proper :=
  List.forall_mem_append.2 ⟨proper_ehlo tp, proper_auth tp⟩

theorem proper_rset : ∀ o ∈ rsetOps, o.Proper := by decide

theorem proper_noop : ∀ o ∈ noopOps, o.Proper := by decide

theorem proper_rcpt (toList : List Bytes) : ∀ o ∈ rcptOps toList, o.Proper := by
  induction toList with
  | nil => exact nofun
  | cons to_ toList ih =>
    rw [rcptOps_cons]
    exact List.forall_mem_append.2 ⟨by simp [Op.Proper]; decide, ih⟩

theorem proper_mail (tp : Tp) (toList : List Bytes) (data : Bytes) :
    ∀ o ∈ mailOps tp toList data, o.Proper := by
  refine List.forall_mem_append.2 ⟨List.forall_mem_append.2 ⟨?_, proper_rcpt toList⟩, ?_⟩
  · simp [Op.Proper]
  · simp [dataOps, Op.Proper]

end SmtpProxy
