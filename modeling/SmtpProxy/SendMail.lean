/-
  Sending a message (`newConn` and `tpSendMail` in transport.c, `sendMail` and
  the reply of `handleClient` in client.c).

  `Env` is what a call of `sendMail` meets: what `getAnIdleConn` comes to, and
  what the network does.  `dialogue` are the steps a message takes from there.

  * `implements_tpSendMail`: `tpSendMail` implements the dialogue of its
    message; `mails_tpSendMail`: what it writes after `DATA`;
  * `respond_iff`: the response to one message says whether it was delivered,
    under the condition `Truthful`;
  * `verdict_iff`: the same for every message of every client;
  * `greeting_250`: a server that greets with 250.
-/
import SmtpProxy.Framing
import SmtpProxy.Ops
import SmtpProxy.Replies

namespace SmtpProxy

open CString Search

/-- What `getAnIdleConn` comes to. -/
inductive GetConn where
  | busy  -- no connection for 90 seconds
  | reused  -- an idle connection
  | new (connected : Bool)  -- `newConn`, and whether `tcpConnect` succeeds
  deriving DecidableEq

/-- `newConn` -/
def newConn (tp : Tp) (connected : Bool) : Cmd :=
  if connected then fun w => (smtpEHLO tp).and (smtpAuth tp) { w with ssl := false }
  else .fail (bytes "500 cannot connect to smtp server\r\n")

/-- The commands of a message. -/
def transaction (tp : Tp) (toList : List Bytes) (data : Bytes) : Cmd :=
  (smtpMAILFROM tp.name).and <| (smtpRCPTTO toList).and (smtpDATA data)

def tpSendMail (tp : Tp) (toList : List Bytes) (data : Bytes) : GetConn → Cmd
  | .busy => .fail (bytes "500 proxy too busy, try later\r\n")
  | .reused => smtpRSET.and (transaction tp toList data)
  | .new connected => (newConn tp connected).and (transaction tp toList data)

def sendMail (transports : List Tp) (msg : Bytes) (how : GetConn) (w : Session) : Session :=
  let e := prepareSendMail msg w.err errlen
  if e.ret then
    match findTpByName transports e.sender with
    | none =>
      (Cmd.fail (bytes "500 invalid transport, " ++ e.sender ++ bytes " not found\r\n") w).2
    | some tp => (tpSendMail tp e.recipients (e.msg.drop e.data) how w).2
  else { w with err := e.err }

/-- What a call of `sendMail` meets. -/
structure Env where
  how : GetConn
  net : Net
  deriving DecidableEq

/-- The session of the call, with `res` zeroed. -/
def Env.session (env : Env) : Session :=
  ⟨env.net.ssl, env.net.sends, env.net.recvs, env.net.hands, List.replicate 1024 0, []⟩

/-- What `handleClient` makes of a message. -/
def respond (transports : List Tp) (msg : Bytes) (env : Env) : Session :=
  sendMail transports msg env.how env.session

/-- The response written to the client: `strlen(res)` bytes of `res`. -/
def response (transports : List Tp) (msg : Bytes) (env : Env) : Bytes :=
  cstr (respond transports msg env).err

/-! ## The dialogue of a message -/

def setupSteps (tp : Tp) : List Step :=
  (if strcmp tp.ssl (bytes "SSL") then [.hand] else []) ++ [.expect [bytes "220"]] ++
    (if strcmp tp.ssl (bytes "TLS") then
      [.write (bytes "EHLO localhost\r\n"), .expect [bytes "250"], .write (bytes "STARTTLS\r\n"),
        .expect [bytes "220"], .hand] else []) ++
    [.write (bytes "EHLO localhost\r\n"), .expect [bytes "250"]]

def authSteps (tp : Tp) : List Step :=
  if strcmp tp.password (bytes "__OUR_SMTP_PROXY_SKIP_AUTH__") then []
  else if !strcmp tp.auth (bytes "LOGIN") then [.stop]
  else
    [.write (bytes "AUTH LOGIN\r\n"), .expect [bytes "334"],
      .write (cstr (base64_encode (cstr tp.username))), .expect [bytes "334"],
      .write (cstr (base64_encode (cstr tp.password))), .expect [bytes "235"]]

def rcptSteps : List Bytes → List Step
  | [] => []
  | to_ :: toList => [.write (cstr (line1024 "RCPT TO:<" to_)), .expect [bytes "250", bytes "251"]] ++
      rcptSteps toList

def mailSteps (tp : Tp) (toList : List Bytes) (data : Bytes) : List Step :=
  [.write (cstr (line1024 "MAIL FROM:<" tp.name)), .expect [bytes "250"]] ++ (rcptSteps toList ++
    [.write (bytes "DATA\r\n"), .expect [bytes "354"], .write (cstr data), .expect [bytes "250"]])

/-- The steps from `getAnIdleConn` on. -/
def GetConn.steps (tp : Tp) : GetConn → List Step
  | .busy => [.stop]
  | .reused => [.write (bytes "RSET\r\n"), .expect [bytes "250", bytes "220"]]
  | .new connected => if connected then .connect :: (setupSteps tp ++ authSteps tp) else [.stop]

/-- The message has an envelope, for one of the transports. -/
def Routed (transports : List Tp) (M : Bytes) : Prop :=
  (prepareSendMail (M ++ [0]) [] errlen).ret = true ∧
    (findTpByName transports (prepareSendMail (M ++ [0]) [] errlen).sender).isSome

/-- The steps of the message `M`. -/
def dialogue (transports : List Tp) (M : Bytes) (how : GetConn) : List Step :=
  let e := prepareSendMail (M ++ [0]) [] errlen
  if e.ret then
    match findTpByName transports e.sender with
    | none => [.stop]
    | some tp => how.steps tp ++ mailSteps tp e.recipients e.payload
  else [.stop]

theorem transaction_eq (tp : Tp) (toList : List Bytes) (data : Bytes) :
    transaction tp toList data = runOps (mailOps tp toList data) := by
  unfold transaction mailOps dataOps smtpMAILFROM smtpDATA
  rw [smtpRCPTTO_eq]
  simp only [runOps_append, runOps, Cmd.and_ok, Op.cmd, Cmd.and_assoc]

theorem steps_setup (tp : Tp) : (ehloOps tp ++ authOps tp).map Op.step = setupSteps tp ++ authSteps tp := by
  unfold ehloOps authOps setupSteps authSteps
  split_ifs <;> rfl

theorem steps_rcpt (toList : List Bytes) : (rcptOps toList).map Op.step = rcptSteps toList := by
  induction toList with
  | nil => rfl
  | cons to_ toList ih =>
    rw [rcptOps_cons, List.map_append, ih]
    rfl

theorem steps_mail (tp : Tp) (toList : List Bytes) (data : Bytes) :
    (mailOps tp toList data).map Op.step = mailSteps tp toList data := by
  rw [mailOps, List.map_append, List.map_append, steps_rcpt, mailSteps, List.append_assoc]
  rfl

theorem implements_transaction (tp : Tp) (toList : List Bytes) (data : Bytes) :
    Implements (transaction tp toList data) (mailSteps tp toList data) := by
  rw [transaction_eq, ← steps_mail tp toList data]
  exact implements_runOps (proper_mail tp toList data)

theorem implements_newConn (tp : Tp) (connected : Bool) :
    Implements (newConn tp connected) ((GetConn.new connected).steps tp) := by
  have h := implements_runOps (proper_setup tp)
  rw [runOps_append, ← smtpEHLO_eq, ← smtpAuth_eq, steps_setup] at h
  exact Implements.ite connected (fun w => h { w with ssl := false }) (implements_fail rfl)

/-- **`tpSendMail` implements the dialogue of its message.** -/
theorem implements_tpSendMail (tp : Tp) (toList : List Bytes) (data : Bytes) (how : GetConn) :
    Implements (tpSendMail tp toList data how) (how.steps tp ++ mailSteps tp toList data) := by
  have ht := implements_transaction tp toList data
  cases how with
  | busy =>
    intro w
    exact ⟨rfl, own_text rfl _⟩
  | reused =>
    have hrset : Implements smtpRSET (GetConn.reused.steps tp) := by
      rw [smtpRSET_eq]
      exact implements_runOps proper_rset
    exact hrset.and ht
  | new connected => exact (implements_newConn tp connected).and ht

/-! ## What is written after DATA -/

/-- The server lets the payload come. -/
def goAhead : Event := .expected (bytes "354") true

/-- The command does not get as far as to be sent a payload. -/
def Silent (f : Cmd) : Prop := ∀ w, ∃ l, (f w).2.log = w.log ++ l ∧ goAhead ∉ l

theorem Silent.of_log {f : Cmd} (h : ∀ w, (f w).2.log = w.log) : Silent f :=
  fun w => ⟨[], by rw [h, List.append_nil], by simp⟩

theorem Silent.and {f g : Cmd} (hf : Silent f) (hg : Silent g) : Silent (f.and g) := by
  intro w
  obtain ⟨l, hl, h⟩ := hf w
  unfold Cmd.and
  rcases hfw : f w with ⟨_ | _, w'⟩
  · exact ⟨l, by rw [hfw] at hl; exact hl, h⟩
  · obtain ⟨l', hl', h'⟩ := hg w'
    rw [hfw] at hl
    refine ⟨l ++ l', ?_, ?_⟩
    · show (g w').2.log = _
      rw [hl', hl, List.append_assoc]
    · rw [List.mem_append, not_or]
      exact ⟨h, h'⟩

theorem Silent.ite {f g : Cmd} (b : Bool) (hf : Silent f) (hg : Silent g) :
    Silent (if b then f else g) := by
  cases b
  · exact hg
  · exact hf

theorem Silent.orCode {f : Cmd} (hf : Silent f) (code : Bytes) : Silent (f.orCode code) := by
  intro w
  obtain ⟨l, hl, h⟩ := hf w
  exact ⟨l, by rw [Cmd.orCode_snd, hl], h⟩

theorem smtpWrite_log (data : Bytes) (w : Session) :
    (smtpWrite data w).2.log =
        w.log ++ [.wrote w.ssl (sent w.ssl data w.nextSend.1) (smtpWrite data w).1] ∧
      (smtpWrite data w).2.ssl = w.ssl := by
  have hlog : w.nextSend.2.log = w.log := by
    unfold Session.nextSend
    split
    · rfl
    · rfl
  obtain ⟨text, -, hw⟩ := smtpWrite_eq data w
  rw [hw, ← hlog]
  cases w.nextSend.1.passes w.ssl (lenOf data) with
  | false => exact ⟨rfl, w.nextSend_ssl⟩
  | true => exact ⟨rfl, w.nextSend_ssl⟩

theorem smtpExpect_log (code : Bytes) (w : Session) :
    (smtpExpect code w).2.log = w.log ++ [.expected code (smtpExpect code w).1] ∧
      (smtpExpect code w).2.ssl = w.ssl := by
  obtain ⟨ssl, sends, recvs, hands, err, log⟩ := w
  rcases recvs with _ | ⟨_ | _ | _ | bs, rs⟩
  · exact ⟨rfl, rfl⟩
  · exact ⟨rfl, rfl⟩
  · exact ⟨rfl, rfl⟩
  · exact ⟨rfl, rfl⟩
  · rw [smtpExpect_data rfl]
    obtain ⟨b, err', hd⟩ := expectData_frame code bs ⟨ssl, sends, rs, hands, err, log⟩
    simp only [hd]
    exact ⟨rfl, rfl⟩

theorem silent_write (data : Bytes) : Silent (smtpWrite data) := by
  intro w
  exact ⟨_, (smtpWrite_log data w).1, by simp [goAhead]⟩

theorem silent_expect {code : Bytes} (h : code ≠ bytes "354") : Silent (smtpExpect code) := by
  intro w
  exact ⟨_, (smtpExpect_log code w).1, by simp [goAhead, h.symm]⟩

theorem silent_250 : Silent (smtpExpect (bytes "250")) := silent_expect (by decide)

theorem silent_hand : Silent smtpSSLConnect := by
  refine .of_log fun w => ?_
  obtain ⟨ssl, sends, recvs, hands, err, log⟩ := w
  rcases hands with _ | ⟨_ | _, hs⟩
  · rfl
  · rfl
  · rfl

theorem silent_newConn (tp : Tp) (connected : Bool) : Silent (newConn tp connected) := by
  have h220 : Silent (smtpExpect (bytes "220")) := silent_expect (by decide)
  have h334 : Silent (smtpExpect (bytes "334")) := silent_expect (by decide)
  have h235 : Silent (smtpExpect (bytes "235")) := silent_expect (by decide)
  have htls : Silent ((smtpWrite (bytes "EHLO localhost\r\n")).and <|
      (smtpExpect (bytes "250")).and <| (smtpWrite (bytes "STARTTLS\r\n")).and <|
      (smtpExpect (bytes "220")).and smtpSSLConnect) :=
    (silent_write _).and <| silent_250.and <| (silent_write _).and <| h220.and silent_hand
  have hehlo : Silent (smtpEHLO tp) :=
    (Silent.ite _ silent_hand (.of_log fun _ => rfl)).and <| h220.and <|
      (Silent.ite _ htls (.of_log fun _ => rfl)).and <| (silent_write _).and silent_250
  have hauth : Silent (smtpAuth tp) := by
    refine Silent.ite _ (.of_log fun _ => rfl) (Silent.ite _ (.of_log fun _ => rfl) ?_)
    exact (silent_write _).and <| h334.and <| (silent_write _).and <| h334.and <|
      (silent_write _).and h235
  exact Silent.ite connected (fun w => hehlo.and hauth { w with ssl := false }) (.of_log fun _ => rfl)

theorem silent_smtpRCPTTO (toList : List Bytes) : Silent (smtpRCPTTO toList) := by
  induction toList with
  | nil => exact .of_log fun _ => rfl
  | cons to_ toList ih =>
    exact (((silent_write _).and silent_250).orCode _).and ih

/-- What `smtpDATA` logs for the payload `data`, with its result. -/
inductive DataLog (tls : Bool) (data : Bytes) : Bool → List Event → Prop
  | command : DataLog tls data false [.wrote tls (bytes "DATA\r\n") false]
  | refused : DataLog tls data false
      [.wrote tls (bytes "DATA\r\n") true, .expected (bytes "354") false]
  | unsent (x : Send) : DataLog tls data false
      [.wrote tls (bytes "DATA\r\n") true, goAhead, .wrote tls (sent tls data x) false]
  | sent (x : Send) (ok : Bool) : DataLog tls data ok
      [.wrote tls (bytes "DATA\r\n") true, goAhead, .wrote tls (sent tls data x) true,
        .expected (bytes "250") ok]

theorem sent_data (tls : Bool) (x : Send) : sent tls (bytes "DATA\r\n") x = bytes "DATA\r\n" :=
  (sent_eq_iff tls (bytes "DATA\r\n") x).2 (by decide)

theorem smtpDATA_log (data : Bytes) (w : Session) : ∃ tail,
    (smtpDATA data w).2.log = w.log ++ tail ∧ DataLog w.ssl data (smtpDATA data w).1 tail := by
  unfold smtpDATA Cmd.and
  have h₁ := smtpWrite_log (bytes "DATA\r\n") w
  rw [sent_data] at h₁
  rcases hw₁ : smtpWrite (bytes "DATA\r\n") w with ⟨_ | _, w₁⟩
  · rw [hw₁] at h₁
    exact ⟨_, h₁.1, .command⟩
  rw [hw₁] at h₁
  have h₂ := smtpExpect_log (bytes "354") w₁
  dsimp only
  rcases hw₂ : smtpExpect (bytes "354") w₁ with ⟨_ | _, w₂⟩
  · rw [hw₂] at h₂
    refine ⟨_, ?_, .refused⟩
    rw [h₂.1, h₁.1, List.append_assoc]; rfl
  rw [hw₂] at h₂
  have h₃ := smtpWrite_log data w₂
  dsimp only
  have hssl : w₂.ssl = w.ssl := h₂.2.trans h₁.2
  rcases hw₃ : smtpWrite data w₂ with ⟨_ | _, w₃⟩
  · rw [hw₃, hssl] at h₃
    refine ⟨_, ?_, .unsent w₂.nextSend.1⟩
    rw [h₃.1, h₂.1, h₁.1, List.append_assoc, List.append_assoc]; rfl
  rw [hw₃, hssl] at h₃
  have h₄ := smtpExpect_log (bytes "250") w₃
  refine ⟨_, ?_, .sent w₂.nextSend.1 _⟩
  rw [h₄.1, h₃.1, h₂.1, h₁.1, List.append_assoc, List.append_assoc, List.append_assoc]; rfl

/-- The command sends the payload `data` last, if at all. -/
def Mails (data : Bytes) (f : Cmd) : Prop := ∀ w, ∃ l, goAhead ∉ l ∧
  ((f w).1 = false ∧ (f w).2.log = w.log ++ l ∨
    ∃ tls tail, DataLog tls data (f w).1 tail ∧ (f w).2.log = w.log ++ (l ++ tail))

theorem mails_fail (data text : Bytes) : Mails data (.fail text) :=
  fun w => ⟨[], by simp, Or.inl ⟨rfl, by rw [List.append_nil]; rfl⟩⟩

theorem mails_smtpDATA (data : Bytes) : Mails data (smtpDATA data) := by
  intro w
  obtain ⟨tail, hl, htail⟩ := smtpDATA_log data w
  exact ⟨[], by simp, Or.inr ⟨_, tail, htail, by rw [List.nil_append]; exact hl⟩⟩

theorem Mails.after {data : Bytes} {f g : Cmd} (hf : Silent f) (hg : Mails data g) :
    Mails data (f.and g) := by
  intro w
  obtain ⟨l, hl, h⟩ := hf w
  unfold Cmd.and
  rcases hfw : f w with ⟨_ | _, w'⟩
  · rw [hfw] at hl
    exact ⟨l, h, Or.inl ⟨rfl, hl⟩⟩
  · rw [hfw] at hl
    dsimp only at hl ⊢
    obtain ⟨l', h', hl' | ⟨tls, tail, htail, hl'⟩⟩ := hg w'
    · refine ⟨l ++ l', by rw [List.mem_append, not_or]; exact ⟨h, h'⟩, Or.inl ⟨hl'.1, ?_⟩⟩
      rw [hl'.2, hl, List.append_assoc]
    · refine ⟨l ++ l', by rw [List.mem_append, not_or]; exact ⟨h, h'⟩, Or.inr ⟨tls, tail, htail, ?_⟩⟩
      rw [hl', hl]
      simp only [List.append_assoc]

/-- **`tpSendMail` sends its payload last, if at all.** -/
theorem mails_tpSendMail (tp : Tp) (toList : List Bytes) (data : Bytes) (how : GetConn) :
    Mails data (tpSendMail tp toList data how) := by
  have hmail : Silent (smtpMAILFROM tp.name) := (silent_write _).and silent_250
  have ht : Mails data (transaction tp toList data) :=
    .after hmail (.after (silent_smtpRCPTTO toList) (mails_smtpDATA data))
  cases how with
  | busy => exact mails_fail _ _
  | reused =>
    exact .after ((silent_write _).and (silent_250.orCode _)) ht
  | new connected => exact .after (silent_newConn tp connected) ht

/-! ## The response tells whether the message was delivered -/

/-- The payload `d` was written after `DATA`, and then accepted. -/
def Accepted (d : Bytes) (log : List Event) : Prop :=
  ∃ tls, [.wrote tls (bytes "DATA\r\n") true, goAhead, .wrote tls d true,
    .expected (bytes "250") true] <:+ log

/-- The whole payload of the message `M` was. -/
def Delivered (M : Bytes) (log : List Event) : Prop :=
  ∃ h d, IsFirst dataMark M h d ∧ Accepted d log

theorem Accepted.mem {d : Bytes} {log : List Event} (h : Accepted d log) : goAhead ∈ log := by
  obtain ⟨tls, h⟩ := h
  exact h.subset (by simp)

/-- The payload accepted is the one written. -/
theorem accepted_append_iff {data : Bytes} {tls r : Bool} {tail : List Event}
    (htail : DataLog tls data r tail) :
    ∃ x, ∀ l d', Accepted d' (l ++ tail) ↔ r = true ∧ d' = sent tls data x := by
  cases htail with
  | sent x ok =>
    refine ⟨x, fun l d' => ?_⟩
    constructor
    · rintro ⟨tls', l', hl'⟩
      have heq := (List.append_inj' hl' rfl).2
      simp only [List.cons.injEq, Event.wrote.injEq, Event.expected.injEq] at heq
      exact ⟨heq.2.2.2.1.2.symm, heq.2.2.1.2.1⟩
    · rintro ⟨rfl, rfl⟩
      exact ⟨tls, List.suffix_append _ _⟩
  | command | refused | unsent =>
    refine ⟨.all, fun l d' => iff_of_false ?_ (by simp)⟩
    rintro ⟨tls', hs⟩
    have := hs.getLast (by simp)
    simp at this

/-- The length of the payload is an `int`. -/
def ShortPayload (M : Bytes) : Prop := ∀ h d, IsFirst dataMark M h d → d.length < 2 ^ 31

theorem shortPayload_of_length {M : Bytes} (h : M.length < 2 ^ 31) : ShortPayload M := by
  intro u d hf
  have hlen := congrArg List.length hf.eq
  rw [List.length_append] at hlen
  omega

/-- No refusal looks like success, and what is accepted is the whole message: the
    first refusal does not come from a server that says 250 there, and if every
    step is accepted there is no NUL in the message and its payload is short. -/
def Truthful (transports : List Tp) (M : Bytes) (env : Env) : Prop :=
  match walk (dialogue transports M env.how) env.net with
  | .ok _ => NulFree M ∧ ShortPayload M
  | .error (.server line) => ¬ bytes "250" <+: line
  | .error .proxy => True

/-- The proxy's own texts do not look like success. -/
theorem Own.not_250 {err : Bytes} (h : Own err) : ¬ bytes "250" <+: err := by
  intro h'
  have := List.prefix_of_prefix_length_le h h' (by decide)
  exact absurd this (by decide)

/-- The command succeeds with a reply 250 only. -/
def Ends250 (f : Cmd) : Prop := ∀ w, (f w).1 = true → bytes "250" <+: cstr (f w).2.err

theorem Ends250.after {f g : Cmd} (hg : Ends250 g) : Ends250 (f.and g) := by
  intro w
  unfold Cmd.and
  rcases f w with ⟨_ | _, w'⟩
  · intro h; cases h
  · exact hg w'

theorem ends250_tpSendMail (tp : Tp) (toList : List Bytes) (data : Bytes) (how : GetConn) :
    Ends250 (tpSendMail tp toList data how) := by
  have hexp : Ends250 (smtpExpect (bytes "250")) := fun w h => smtpExpect_true rfl (by decide) h
  have ht : Ends250 (transaction tp toList data) := .after (.after (.after (.after (.after hexp))))
  cases how with
  | busy => intro w h; cases h
  | reused => exact .after ht
  | new connected => exact .after ht

/-- The parser refuses a message with an error text. -/
theorem prepareSendMail_own {msg err : Bytes}
    (h : ¬ (prepareSendMail msg err errlen).ret = true) :
    Own (cstr (prepareSendMail msg err errlen).err) := by
  cases hp : strstr msg dataMark with
  | none =>
    simp only [prepareSendMail, hp]
    exact own_text rfl _
  | some p =>
    cases hk : strstr (memset msg p 0 8) crlf with
    | none =>
      simp only [prepareSendMail, hp, hk]
      exact own_text rfl _
    | some k => simp only [prepareSendMail, hp, hk, not_true_eq_false] at h

/-- A message in its buffer: what the string functions see of it. -/
theorem Holds.split {M buf : Bytes} (h : Holds M buf) : ∃ junk, buf = cstr M ++ 0 :: junk := by
  obtain ⟨j, rfl⟩ := h
  obtain ⟨u, hM, rfl | ⟨v, rfl⟩⟩ := cstr_append_rest M
  · refine ⟨List.replicate j 0, ?_⟩
    rw [List.append_nil] at hM
    rw [← hM]; rfl
  · refine ⟨v ++ List.replicate (j + 1) 0, ?_⟩
    conv_lhs => rw [hM]
    rw [List.append_assoc]; rfl

section
variable {transports : List Tp} {M buf : Bytes}

/-- **`sendMail`**: it refuses the message itself, or passes the payload of the
    message, up to a NUL, to `tpSendMail`. -/
theorem respond_cases (hb : Holds M buf) (env : Env) :
    ¬ Routed transports M ∧ Own (response transports buf env) ∧
      (respond transports buf env).log = [] ∧ dialogue transports M env.how = [.stop] ∨
    Routed transports M ∧ ∃ tp h d data, IsFirst dataMark (cstr M) h d ∧ cstr data = d ∧
      respond transports buf env = (tpSendMail tp
        (prepareSendMail (M ++ [0]) [] errlen).recipients data env.how env.session).2 ∧
      dialogue transports M env.how =
        env.how.steps tp ++ mailSteps tp (prepareSendMail (M ++ [0]) [] errlen).recipients data := by
  obtain ⟨junk, rfl⟩ := hb.split
  obtain ⟨junk', hM'⟩ := (holds_zero M).split
  have hs := cstr_nulFree M
  obtain ⟨hret, hsame⟩ := prepareSendMail_congr junk env.session.err errlen hs junk' []
  unfold response respond sendMail dialogue
  rw [hM']
  by_cases hr : (prepareSendMail (cstr M ++ 0 :: junk) env.session.err errlen).ret = true
  · obtain ⟨hsender, hrcpts, hpay⟩ := hsame hr
    obtain ⟨h, d, hf, hc⟩ := (prepareSendMail_ret junk env.session.err errlen hs).1 hr
    have hdata := (prepareSendMail_ok junk env.session.err errlen hs hf hc).2.2.2.2
    simp only [← hret, hr, if_true, ← hsender, ← hrcpts, ← hpay]
    cases hfind : findTpByName transports
        (prepareSendMail (cstr M ++ 0 :: junk) env.session.err errlen).sender with
    | none =>
      refine Or.inl ⟨fun hr => ?_, own_snprintf ?_ ⟨_, rfl⟩ _, rfl, rfl⟩
      · rw [Routed, hM', ← hsender, hfind] at hr
        exact absurd hr.2 (by simp)
      have h₁ : NulFree (bytes "500 invalid transport, ") := by decide
      have h₂ : NulFree (bytes " not found\r\n") := by decide
      exact (h₁.append (cstr_nulFree _)).append h₂
    | some tp =>
      refine Or.inr ⟨?_, tp, h, d, _, hf, hdata, rfl, ?_⟩
      · rw [Routed, hM', ← hsender, hfind]
        exact ⟨hret ▸ hr, rfl⟩
      · dsimp only
        rw [Envelope.payload, mailSteps, cstr_cstr, mailSteps]
  · simp only [← hret, hr]
    refine Or.inl ⟨fun h => ?_, prepareSendMail_own hr, rfl, rfl⟩
    rw [Routed, hM', ← hret] at h
    exact hr h.1

/-- A message is delivered just when `tpSendMail` succeeds, the message has no NUL
    and its payload is short. -/
theorem delivered_iff {h d data : Bytes} {f : Cmd} {w : Session}
    (hf : IsFirst dataMark (cstr M) h d) (hd : cstr data = d) (hm : Mails data f)
    (hlog : w.log = []) : Delivered M (f w).2.log ↔ (f w).1 = true ∧ NulFree M ∧ ShortPayload M := by
  obtain ⟨u, hM, hu⟩ := cstr_append_rest M
  have hfM : IsFirst dataMark M h (d ++ u) := by
    have := hf.append u
    rwa [← hM] at this
  have hnil : NulFree M ↔ u = [] := by
    constructor
    · intro h0
      rcases hu with rfl | ⟨v, rfl⟩
      · rfl
      · exact absurd (hM ▸ by simp) h0
    · rintro rfl
      rw [hM, List.append_nil]
      exact cstr_nulFree M
  have hshort : ShortPayload M ↔ (d ++ u).length < 2 ^ 31 := by
    refine ⟨fun hall => hall h _ hfM, fun hlt h' d' hf' => ?_⟩
    rw [(hf'.unique hfM).2]
    exact hlt
  rw [hnil, hshort]
  obtain ⟨l, hl, ⟨hfalse, hl'⟩ | ⟨tls, tail, htail, hl'⟩⟩ := hm w
  · rw [hlog, List.nil_append] at hl'
    simp only [hfalse, Bool.false_eq_true, false_and, iff_false]
    rintro ⟨h', d', -, hacc⟩
    exact hl (hl' ▸ hacc.mem)
  · rw [hlog, List.nil_append] at hl'
    obtain ⟨x, hx⟩ := accepted_append_iff htail
    have hiff := sent_eq_iff tls data x
    rw [hl', Delivered]
    simp only [hx]
    rw [hd] at hiff
    constructor
    · rintro ⟨h', d', hf', htrue, rfl⟩
      obtain ⟨rfl, hdu⟩ := hf'.unique hfM
      -- what is written is a part of the payload, so the payload is all of it
      have hle := (sent_isPrefix tls data x).length_le
      rw [hd, hdu, List.length_append] at hle
      obtain rfl : u = [] := List.length_eq_zero_iff.1 (by omega)
      rw [List.append_nil] at hdu ⊢
      exact ⟨htrue, rfl, hiff.1 hdu⟩
    · rintro ⟨htrue, rfl, hlt⟩
      rw [List.append_nil] at hlt hfM
      exact ⟨h, d, hfM, htrue, (hiff.2 hlt).symm⟩

/-- **One message.**  The response begins with 250 just when the whole payload
    was delivered, iff the run is truthful. -/
theorem respond_iff (hb : Holds M buf) (env : Env) :
    ((bytes "250" <+: response transports buf env ↔ Delivered M (respond transports buf env).log) ↔
      Truthful transports M env) := by
  rcases respond_cases hb env with ⟨-, hown, hlog, hdial⟩ | ⟨-, tp, h, d, data, hf, hd, hresp, hdial⟩
  · have hnot : ¬ Delivered M (respond transports buf env).log := by
      rintro ⟨h, d, -, hacc⟩
      rw [hlog] at hacc
      exact absurd hacc.mem List.not_mem_nil
    have ht : Truthful transports M env := by
      unfold Truthful
      rw [hdial]
      trivial
    exact iff_of_true (iff_of_false hown.not_250 hnot) ht
  · set rcpts := (prepareSendMail (M ++ [0]) [] errlen).recipients
    have himp := implements_tpSendMail tp rcpts data env.how env.session
    have h250 := ends250_tpSendMail tp rcpts data env.how env.session
    have hdel := delivered_iff hf hd (mails_tpSendMail tp rcpts data env.how)
      (w := env.session) rfl
    rw [response, hresp, Truthful, hdial, hdel]
    rw [show env.session.net = env.net from rfl] at himp
    cases hw : walk (env.how.steps tp ++ mailSteps tp rcpts data) env.net with
    | ok n =>
      rw [hw] at himp
      simp only [himp.1, true_and, h250 himp.1, true_iff]
    | error r =>
      rw [hw] at himp
      cases r with
      | proxy => simp [himp.1, himp.2.not_250]
      | server line => simp [himp.1, himp.2]

/-- A message whose steps are all accepted is answered with 250. -/
theorem response_of_walk (hb : Holds M buf) {env : Env} {n : Net}
    (hw : walk (dialogue transports M env.how) env.net = .ok n) :
    bytes "250" <+: response transports buf env := by
  rcases respond_cases hb env with ⟨-, -, -, hdial⟩ | ⟨-, tp, h, d, data, -, -, hresp, hdial⟩
  · rw [hdial] at hw
    cases hw
  · set rcpts := (prepareSendMail (M ++ [0]) [] errlen).recipients
    have himp := implements_tpSendMail tp rcpts data env.how env.session
    rw [show env.session.net = env.net from rfl, ← hdial, hw] at himp
    rw [response, hresp]
    exact ends250_tpSendMail tp rcpts data env.how env.session himp.1

end

/-- **The verdict.**  For every client, every way its bytes are read, and all
    that its messages meet: the response to a message begins with 250 just when
    its whole payload was written after `DATA` and then accepted, iff that
    message is met by a truthful run. -/
theorem verdict_iff (transports : List Tp) {p : List (ClientThread Env × ClientEvent Env)}
    {c : ClientThread Env} (hp : Runs.Path ClientThread.step .init p c) :
    List.Forall₂ (fun M x =>
      (bytes "250" <+: response transports x.1 x.2 ↔
        Delivered M (respond transports x.1 x.2).log) ↔ Truthful transports M x.2)
      (frames (readsOf p)).1 c.sent := by
  refine (framed_of_path hp).sent.imp fun M x hb => ?_
  exact respond_iff hb x.2

/-! ## A server that greets with 250 -/

/-- A message for `t` to the recipient `b`. -/
def msgPlain : Bytes := request (bytes "t") [bytes "b"] (bytes "x\r\n.\r\n")

/-- `250 hi`, for the greeting of a new connection. -/
def envGreeting : Env := ⟨.new true, ⟨false, [], [.data ⟨bytes "250 hi\r\n", by decide⟩], []⟩⟩

theorem complete_msgPlain : Complete msgPlain := by decide

/-- Messages for the transport `t`. -/
theorem prepare_plain {data : Bytes} (hd : NulFree data) :
    (prepareSendMail (request (bytes "t") [bytes "b"] data ++ [0]) [] errlen).ret = true ∧
    (prepareSendMail (request (bytes "t") [bytes "b"] data ++ [0]) [] errlen).sender = bytes "t" ∧
    (prepareSendMail (request (bytes "t") [bytes "b"] data ++ [0]) [] errlen).recipients =
      [bytes "b"] ∧
    (prepareSendMail (request (bytes "t") [bytes "b"] data ++ [0]) [] errlen).payload = data := by
  have hf : NulFree (bytes "t") ∧ ¬ crlf <:+: bytes "t" := by decide
  have hr : ∀ r ∈ [bytes "b"], NulFree r ∧ ¬ crlf <:+: r ∧ r ≠ dataWord := by decide
  exact prepareSendMail_request [] [] errlen hf (by simp) hr hd

/-- The dialogue of that message. -/
theorem dialogue_msgPlain (how : GetConn) :
    dialogue [tpPlain] msgPlain how =
      how.steps tpPlain ++ mailSteps tpPlain [bytes "b"] (bytes "x\r\n.\r\n") := by
  have hd : NulFree (bytes "x\r\n.\r\n") := by decide
  obtain ⟨hret, hsender, hrcpts, hpay⟩ := prepare_plain hd
  have hfind : findTpByName [tpPlain] (bytes "t") = some tpPlain := by decide
  simp only [dialogue, msgPlain, hret, hsender, hrcpts, hpay, hfind, if_true]

/-- A connection on which every step of that message is accepted. -/
def envSent : Env :=
  ⟨.reused, ⟨false, List.replicate 5 .all, lineReads [code250, code250, code251, code354, code250], []⟩⟩

theorem walk_envSent :
    walk (dialogue [tpPlain] msgPlain envSent.how) envSent.net = .ok ⟨false, [], [], []⟩ := by
  rw [dialogue_msgPlain]
  decide +kernel

theorem truthful_envSent : Truthful [tpPlain] msgPlain envSent := by
  unfold Truthful
  rw [walk_envSent]
  exact ⟨by decide, shortPayload_of_length (by decide)⟩

/-- That message comes in two reads, and meets that server. -/
theorem run_msgPlain : ∃ (p : List (ClientThread Env × ClientEvent Env)) (c : ClientThread Env)
    (x : Bytes × Env), Runs.Path ClientThread.step .init p c ∧ readsOf p = [msgPlain.take 9, msgPlain.drop 9] ∧ c.sent = [x] ∧
      Holds msgPlain x.1 ∧ x.2 = envSent := by
  obtain ⟨p, c, hp, -, hr, henv, -⟩ := path_of_reads envSent [msgPlain.take 9, msgPlain.drop 9]
    (by decide) (by decide)
  have hframes : (frames (readsOf p)).1 = [msgPlain] := by rw [hr]; decide
  have hheld := (framed_of_path hp).sent
  rw [hframes] at hheld
  obtain ⟨x, rest, hx, hnil, hsent⟩ := List.forall₂_cons_left_iff.1 hheld
  obtain rfl := List.forall₂_nil_left_iff.1 hnil
  exact ⟨p, c, x, hp, hr, hsent, hx, henv x (by rw [hsent]; exact List.mem_singleton_self x)⟩

/-- Every step is accepted, so the response is 250 and the payload is delivered. -/
theorem verdict_iff_sent : ∃ (p : List (ClientThread Env × ClientEvent Env)) (c : ClientThread Env),
    Runs.Path ClientThread.step .init p c ∧ readsOf p = [msgPlain.take 9, msgPlain.drop 9] ∧
      List.Forall₂ (fun M x => bytes "250" <+: response [tpPlain] x.1 x.2 ∧
        Delivered M (respond [tpPlain] x.1 x.2).log) [msgPlain] c.sent := by
  obtain ⟨p, c, x, hp, hr, hsent, hx, he⟩ := run_msgPlain
  have hframes : (frames (readsOf p)).1 = [msgPlain] := by rw [hr]; decide
  have hall := verdict_iff [tpPlain] hp
  rw [hframes, hsent] at hall
  have h250 := response_of_walk hx (he ▸ walk_envSent)
  have hdel := ((List.forall₂_cons.1 hall).1.2 (he ▸ truthful_envSent)).1 h250
  refine ⟨p, c, hp, hr, ?_⟩
  rw [hsent]
  exact .cons ⟨h250, hdel⟩ .nil

/-- **A greeting taken for success.**  The message is not sent, and the response
    is `250 hi`. -/
theorem greeting_250 : ∃ c, Runs.Path ClientThread.step .init
      [(.init, .read msgPlain envGreeting true)] c ∧
    ¬ List.Forall₂ (fun M x => bytes "250" <+: response [tpPlain] x.1 x.2 ↔
        Delivered M (respond [tpPlain] x.1 x.2).log) [msgPlain] c.sent := by
  obtain ⟨j, c, hc, hp⟩ := path_of_complete complete_msgPlain (by decide) envGreeting
  refine ⟨c, hp, fun h => ?_⟩
  rw [hc] at h
  have hmsg := List.forall₂_cons.1 h |>.1
  have ht := (respond_iff ⟨j, rfl⟩ envGreeting).1 hmsg
  have hreply : replyOf (bytes "250 hi\r\n") = some (bytes "250 hi\r\n") :=
    replyOf_line ⟨bytes "250 hi\r", by decide⟩ (by decide) (by decide)
  have hw : walk (dialogue [tpPlain] msgPlain (.new true)) envGreeting.net =
      .error (.server (bytes "250 hi\r\n")) := by
    rw [dialogue_msgPlain]
    show walk (.connect :: .expect [bytes "220"] :: _) _ = _
    simp only [walk, Step.walk, envGreeting, Net.reply, hreply, Option.map_some]
    rfl
  unfold Truthful at ht
  rw [show envGreeting.how = .new true from rfl, hw] at ht
  exact ht (by decide)

end SmtpProxy
