/-
  The recipients of a message: MAIL, RCPT for each of them, DATA and the payload
  are requests (`Request`), sent one after another as long as the server accepts
  them.

  `Answer` is what the proxy reads after a request: a whole reply, or nothing
  that it can use.

  * `requests_run`: a list of requests is sent up to the first that is not
    accepted, and its reply is in the error text;
  * `all_or_nothing_iff`: what that means for the recipients of a message, as long
    as the length of its payload is an `int`;
  * `payload_wrapped`: a payload of 2^32 + 5 bytes.
-/
import SmtpProxy.SendMail

namespace SmtpProxy

open CString

/-- What is read after a request. -/
inductive Answer where
  | reply (R : Reply)
  | closed  -- `recv` or `SSL_read` returns 0
  | error
  | pollError
  | noInput

def Answer.recv : Answer → Recv
  | .reply R => .data ⟨R.bytes, R.size⟩
  | .closed => .data ⟨[], by decide⟩
  | .error => .error
  | .pollError => .pollError
  | .noInput => .noInput

/-- A command, or the payload, with the codes that are accepted; none of them is
    the code of the proxy's own texts. -/
structure Request where
  text : Bytes
  code : Code
  also : Option Code
  foreign : ∀ c ∈ also, c.1 ≠ bytes "500"

namespace Request

def codes (r : Request) : List Code := r.code :: r.also.toList

def ops (r : Request) : List Op :=
  [.write r.text, match r.also with
    | none => .expect r.code.1
    | some c => .either r.code.1 c.1]

end Request

/-- A request that is accepted with one code only. -/
def simple (text : Bytes) (code : Code) : Request := ⟨text, code, none, by simp⟩

def mailRequest (from_ : Bytes) : Request := simple (line1024 "MAIL FROM:<" from_) code250

def rcptRequest (to_ : Bytes) : Request :=
  ⟨line1024 "RCPT TO:<" to_, code250, some code251, by simp [code251]; decide⟩

def dataRequests (data : Bytes) : List Request :=
  [simple (bytes "DATA\r\n") code354, simple data code250]

/-- The requests of a message. -/
def requests (tp : Tp) (toList : List Bytes) (data : Bytes) : List Request :=
  mailRequest tp.name :: (toList.map rcptRequest ++ dataRequests data)

theorem mailOps_eq (tp : Tp) (toList : List Bytes) (data : Bytes) :
    mailOps tp toList data = (requests tp toList data).flatMap Request.ops := by
  rw [requests, List.flatMap_cons, List.flatMap_append, List.flatMap_map, mailOps, List.append_assoc]
  rfl

/-- `smtpWrite` of the text succeeds. -/
def Taken (tls : Bool) (text : Bytes) (x : Option Send) : Prop :=
  ∃ s, x = some s ∧ s.passes tls (lenOf text) = true

/-- The text was sent, and answered with one of the codes. -/
def Granted (tls : Bool) (text : Bytes) (codes : List Code) (x : Option Send) (y : Option Answer) : Prop :=
  Taken tls text x ∧ ∃ R, y = some (.reply R) ∧ R.code ∈ codes

/-- A command was sent, and answered with one of the codes. -/
def Obeyed (codes : List Code) (x : Option Send) (y : Option Answer) : Prop :=
  x = some .all ∧ ∃ R, y = some (.reply R) ∧ R.code ∈ codes

/-- A text that is neither empty nor long is taken whole or not at all. -/
theorem granted_iff_obeyed {text : Bytes} (h : 0 < lenOf text) (tls : Bool) (codes : List Code)
    (x : Option Send) (y : Option Answer) : Granted tls text codes x y ↔ Obeyed codes x y := by
  refine and_congr_left fun _ => ?_
  simp only [Taken, passes_of_pos h, decide_eq_true_eq]
  constructor
  · rintro ⟨s, rfl, rfl⟩
    rfl
  · rintro rfl
    exact ⟨.all, rfl, rfl⟩

/-- What was given to `send` or `SSL_write`, in order. -/
def written (log : List Event) : List Bytes :=
  log.filterMap fun e => match e with
    | .wrote _ data _ => some data
    | .expected _ _ => none

/-! ## One request -/

/-- What is expected of the answers that have not been read. -/
def Net.Answers (n : Net) (answers : List Answer) : Prop := n.recvs = answers.map Answer.recv

theorem Code.cstr_take (c : Code) : (cstr c.1).take 3 = c.1 := by
  rw [cstr_of_nulFree c.nulFree, List.take_of_length_le (by rw [c.2.1])]

theorem implements_ops (r : Request) :
    Implements (runOps r.ops) [.write (cstr r.text), .expect (r.codes.map Subtype.val)] := by
  obtain ⟨text, code, also, hf⟩ := r
  cases also with
  | none => exact (implements_write _).and ((implements_expect _).and implements_ok)
  | some c =>
    have hc : (cstr c.1).take 3 ≠ bytes "500" := by
      rw [c.cstr_take]
      exact hf c rfl
    exact (implements_write _).and ((implements_expect_or hc).and implements_ok)

/-- An answer that is no reply. -/
theorem reply_none {n : Net} {y : Answer} {ys : List Answer} (hn : n.Answers (y :: ys))
    (hy : ∀ R, y ≠ .reply R) : n.reply = none := by
  unfold Net.Answers at hn
  unfold Net.reply
  rw [hn]
  cases y with
  | reply R => exact absurd rfl (hy R)
  | closed => rfl
  | error => rfl
  | pollError => rfl
  | noInput => rfl

/-- A reply is accepted by its code. -/
theorem any_code (codes : List Code) (R : Reply) :
    (codes.map Subtype.val).any (fun c => strncmp c R.final 3) = true ↔ R.code ∈ codes := by
  simp only [List.any_map, List.any_eq_true, Function.comp_apply]
  constructor
  · rintro ⟨c, hc, h⟩
    rwa [(strncmp_replyLine c R.code (by decide) R.last).1 h]
  · intro h
    exact ⟨R.code, h, (strncmp_replyLine R.code R.code (by decide) R.last).2 rfl⟩

/-- **One request**: it is granted, or refused by the server, or fails. -/
theorem walk_request (text : Bytes) (codes : List Code) {n : Net} {answers : List Answer}
    (hn : n.Answers answers) :
    match walk [.write (cstr text), .expect (codes.map Subtype.val)] n with
    | .ok n' => Granted n.ssl text codes n.sends.head? answers.head? ∧ n'.ssl = n.ssl ∧
        n'.sends = n.sends.tail ∧ n'.Answers answers.tail
    | .error e => ¬ Granted n.ssl text codes n.sends.head? answers.head? ∧
        ∀ R, Taken n.ssl text n.sends.head? → answers.head? = some (.reply R) → e = .server R.final := by
  obtain ⟨ssl, sends, recvs, hands⟩ := n
  obtain rfl : recvs = answers.map Answer.recv := hn
  cases sends with
  | nil =>
    have hno : ¬ Taken ssl text ([] : List Send).head? := by
      rintro ⟨s, hs, -⟩
      cases hs
    exact ⟨fun h => hno h.1, fun R h => absurd h hno⟩
  | cons x xs =>
    have htaken : Taken ssl text (some x) ↔ x.passes ssl (lenOf text) = true := by
      simp [Taken]
    simp only [walk, Step.walk, List.head?_cons, Granted, htaken, lenOf_cstr]
    by_cases hx : x.passes ssl (lenOf text) = true
    · simp only [hx, if_true, true_and]
      cases answers with
      | nil =>
        constructor
        · rintro ⟨R, hR, -⟩
          cases hR
        · intro R _ hR
          cases hR
      | cons y ys =>
        by_cases hy : ∃ R, y = .reply R
        · obtain ⟨R, rfl⟩ := hy
          have hreply : Net.reply ⟨ssl, xs, ((Answer.reply R) :: ys).map Answer.recv, hands⟩ =
              some (R.final, ⟨ssl, xs, ys.map Answer.recv, hands⟩) := by
            simp only [Net.reply, List.map_cons, Answer.recv, replyOf_reply, Option.map_some]
          simp only [hreply]
          by_cases hg : R.code ∈ codes
          · rw [if_pos ((any_code codes R).2 hg)]
            exact ⟨⟨R, rfl, hg⟩, rfl, rfl, rfl⟩
          · rw [if_neg (fun h => hg ((any_code codes R).1 h))]
            constructor
            · rintro ⟨R', hR, hc⟩
              obtain rfl := Answer.reply.inj (Option.some.inj hR)
              exact hg hc
            · intro R' _ hR
              obtain rfl := Answer.reply.inj (Option.some.inj hR)
              rfl
        · have hreply : Net.reply ⟨ssl, xs, (y :: ys).map Answer.recv, hands⟩ = none :=
            reply_none rfl fun R hR => hy ⟨R, hR⟩
          simp only [hreply]
          constructor
          · rintro ⟨R, hR, -⟩
            exact hy ⟨R, Option.some.inj hR⟩
          · intro R _ hR
            exact absurd ⟨R, Option.some.inj hR⟩ hy
    · simp only [hx, Bool.false_eq_true, if_false]
      exact ⟨fun h => h.1, fun _ h => h.elim⟩

/-! ## A list of requests -/

theorem written_append (l l' : List Event) : written (l ++ l') = written l ++ written l' :=
  List.filterMap_append

/-- What one request writes. -/
theorem request_log (r : Request) (w : Session) : ∃ log x,
    (runOps r.ops w).2.log = w.log ++ log ∧ written log = [sent w.ssl r.text x] := by
  obtain ⟨text, code, also, hf⟩ := r
  have hw := (smtpWrite_log text w).1
  have hexp : ∃ o : Op, runOps (Request.ops ⟨text, code, also, hf⟩) = (smtpWrite text).and o.cmd ∧
      ∀ w, ∃ b, (o.cmd w).2.log = w.log ++ [.expected code.1 b] := by
    cases also with
    | none =>
      exact ⟨.expect code.1, congrArg _ (Cmd.and_ok _), fun w => ⟨_, (smtpExpect_log code.1 w).1⟩⟩
    | some c =>
      refine ⟨.either code.1 c.1, congrArg _ (Cmd.and_ok _), fun w => ?_⟩
      rw [Op.cmd, Cmd.orCode_snd]
      exact ⟨_, (smtpExpect_log code.1 w).1⟩
  obtain ⟨o, ho, hlog⟩ := hexp
  rw [ho]
  unfold Cmd.and
  rcases hww : smtpWrite text w with ⟨_ | _, w'⟩
  · rw [hww] at hw
    exact ⟨_, _, hw, rfl⟩
  · rw [hww] at hw
    obtain ⟨b, hb⟩ := hlog w'
    refine ⟨[.wrote w.ssl (sent w.ssl text w.nextSend.1) true, .expected code.1 b], _, ?_, rfl⟩
    dsimp only
    rw [hb, hw, List.append_assoc]
    rfl

/-- The request at a place of the list is granted. -/
def GrantedAt (tls : Bool) (rs : List Request) (sends : List Send) (answers : List Answer) (i : ℕ) : Prop :=
  ∃ r, rs[i]? = some r ∧ Granted tls r.text r.codes sends[i]? answers[i]?

theorem grantedAt_succ {tls : Bool} {r : Request} {rs : List Request} {sends : List Send}
    {answers : List Answer} {i : ℕ} :
    GrantedAt tls (r :: rs) sends answers (i + 1) ↔ GrantedAt tls rs sends.tail answers.tail i := by
  simp only [GrantedAt, List.getElem?_cons_succ, List.getElem?_tail]

theorem grantedAt_zero {tls : Bool} {r : Request} {rs : List Request} {sends : List Send}
    {answers : List Answer} :
    GrantedAt tls (r :: rs) sends answers 0 ↔ Granted tls r.text r.codes sends.head? answers.head? := by
  simp [GrantedAt, List.head?_eq_getElem?]

/-- What is written for the texts, one by one. -/
def SentFor (us ts : List Bytes) : Prop := List.Forall₂ (fun u t => ∃ tls x, t = sent tls u x) us ts

theorem exists_sentFor (us : List Bytes) : ∃ ts, SentFor us ts := by
  induction us with
  | nil => exact ⟨[], .nil⟩
  | cons u us ih =>
    obtain ⟨ts, hts⟩ := ih
    exact ⟨_, .cons ⟨false, .all, rfl⟩ hts⟩

/-- Short texts are written whole, and of the last what one call is given. -/
theorem SentFor.whole {us ts : List Bytes} {u : Bytes} (h : SentFor (us ++ [u]) ts)
    (hs : ∀ u ∈ us, (cstr u).length < 2 ^ 31) : ∃ tls x, ts = us.map cstr ++ [sent tls u x] := by
  induction us generalizing ts with
  | nil =>
    obtain ⟨_, _, ⟨tls, x, rfl⟩, hnil, rfl⟩ := List.forall₂_cons_left_iff.1 h
    obtain rfl := List.forall₂_nil_left_iff.1 hnil
    exact ⟨tls, x, rfl⟩
  | cons v us ih =>
    obtain ⟨hv, hus⟩ := List.forall_mem_cons.1 hs
    obtain ⟨_, _, ⟨tls', y, rfl⟩, hts, rfl⟩ := List.forall₂_cons_left_iff.1 h
    obtain ⟨tls, x, rfl⟩ := ih hts hus
    exact ⟨tls, x, by rw [(sent_eq_iff tls' v y).2 hv, List.map_cons, List.cons_append]⟩

/-- What a list of requests comes to, when the first `k` of them are granted and
    the next one is not. -/
structure Outcome (rs : List Request) (w : Session) (answers : List Answer) (k : ℕ)
    (r : Bool × Session) : Prop where
  le : k ≤ rs.length
  granted : ∀ i < k, GrantedAt w.ssl rs w.sends answers i
  refused : k < rs.length → ¬ GrantedAt w.ssl rs w.sends answers k
  sent : ∃ log ts, r.2.log = w.log ++ log ∧ SentFor (rs.map Request.text) ts ∧ written log = ts.take (k + 1)
  ret : r.1 = true ↔ k = rs.length
  err : ∀ q R, rs[k]? = some q → Taken w.ssl q.text w.sends[k]? → answers[k]? = some (.reply R) →
    cstr r.2.err = R.final

/-- The first request is refused. -/
theorem outcome_refuse {r : Request} {rs : List Request} {w w₁ : Session} {answers : List Answer}
    {log : List Event} {x : Send} (hlog : w₁.log = w.log ++ log)
    (hwritten : written log = [sent w.ssl r.text x])
    (hno : ¬ Granted w.ssl r.text r.codes w.sends.head? answers.head?)
    (herr : ∀ R, Taken w.ssl r.text w.sends.head? → answers.head? = some (.reply R) → cstr w₁.err = R.final) :
    Outcome (r :: rs) w answers 0 (false, w₁) := by
  obtain ⟨ts, hts⟩ := exists_sentFor (rs.map Request.text)
  refine ⟨Nat.zero_le _, nofun, fun _ h => hno (grantedAt_zero.1 h), ?_, by simp, ?_⟩
  · exact ⟨log, _ :: ts, hlog, .cons ⟨w.ssl, x, rfl⟩ hts, by simp [hwritten]⟩
  · intro q R hq hs hy
    obtain rfl := Option.some.inj hq
    rw [← List.head?_eq_getElem?] at hs hy
    exact herr R hs hy

/-- The first request is granted, and then it is up to the others. -/
theorem outcome_cons {r : Request} {rs : List Request} {w w₁ : Session} {answers : List Answer} {k : ℕ}
    {log : List Event} {x : Send} {res : Bool × Session} (hlog : w₁.log = w.log ++ log)
    (hwritten : written log = [sent w.ssl r.text x])
    (hyes : Granted w.ssl r.text r.codes w.sends.head? answers.head?) (hs : w₁.sends = w.sends.tail)
    (ht : w₁.ssl = w.ssl) (h : Outcome rs w₁ answers.tail k res) :
    Outcome (r :: rs) w answers (k + 1) res := by
  refine ⟨Nat.succ_le_succ h.le, ?_, ?_, ?_, ?_, ?_⟩
  · intro i hi
    cases i with
    | zero => exact grantedAt_zero.2 hyes
    | succ i =>
      rw [grantedAt_succ, ← hs, ← ht]
      exact h.granted i (Nat.lt_of_succ_lt_succ hi)
  · intro hlt
    rw [grantedAt_succ, ← hs, ← ht]
    exact h.refused (Nat.lt_of_succ_lt_succ hlt)
  · obtain ⟨log', ts, hlog', hts, hwritten'⟩ := h.sent
    refine ⟨log ++ log', sent w.ssl r.text x :: ts, ?_, .cons ⟨w.ssl, x, rfl⟩ hts, ?_⟩
    · rw [hlog', hlog, List.append_assoc]
    · rw [written_append, hwritten, hwritten']
      rfl
  · rw [h.ret]
    simp
  · intro q R hq hx hy
    rw [List.getElem?_cons_succ] at hq
    refine h.err q R hq ?_ ?_
    · rw [ht, hs, List.getElem?_tail]
      exact hx
    · rw [List.getElem?_tail]
      exact hy

/-- **A list of requests** is sent up to the first that is not granted. -/
theorem requests_run (rs : List Request) {w : Session} {answers : List Answer}
    (hn : w.net.Answers answers) : ∃ k, Outcome rs w answers k (runOps (rs.flatMap Request.ops) w) := by
  induction rs generalizing w answers with
  | nil =>
    refine ⟨0, Nat.le_refl _, nofun, nofun, ⟨[], [], (List.append_nil _).symm, .nil, rfl⟩, ?_, nofun⟩
    exact ⟨fun _ => rfl, fun _ => rfl⟩
  | cons r rs ih =>
    rw [List.flatMap_cons, runOps_append]
    have hmeets := implements_ops r w
    have hwalk := walk_request r.text r.codes hn
    obtain ⟨log, x, hlog, hwritten⟩ := request_log r w
    unfold Cmd.and
    rcases hrun : runOps r.ops w with ⟨b, w₁⟩
    rw [hrun] at hmeets hlog
    cases hw : walk [.write (cstr r.text), .expect (r.codes.map Subtype.val)] w.net with
    | error e =>
      rw [hw] at hmeets hwalk
      obtain rfl : b = false := by
        cases e with
        | server line => exact hmeets.1
        | proxy => exact hmeets.1
      refine ⟨0, outcome_refuse hlog hwritten hwalk.1 fun R hs hy => ?_⟩
      rw [hwalk.2 R hs hy] at hmeets
      exact hmeets.2
    | ok n =>
      rw [hw] at hmeets hwalk
      obtain ⟨rfl, rfl⟩ := hmeets
      obtain ⟨hyes, hssl, hsends, hanswers⟩ := hwalk
      obtain ⟨k, hk⟩ := ih hanswers
      exact ⟨k + 1, outcome_cons hlog hwritten hyes hsends hssl hk⟩

/-! ## The recipients of a message -/

/-- `tpSendMail` up to the connection it can send a message on. -/
def GetConn.ready (tp : Tp) : GetConn → Cmd
  | .busy => .fail (bytes "500 proxy too busy, try later\r\n")
  | .reused => smtpRSET
  | .new connected => newConn tp connected

theorem tpSendMail_eq (tp : Tp) (toList : List Bytes) (data : Bytes) (how : GetConn) :
    tpSendMail tp toList data how = (how.ready tp).and (transaction tp toList data) := by
  cases how <;> rfl

/-- The texts of the requests: MAIL, RCPT for each recipient, DATA, the payload. -/
def texts (tp : Tp) (toList : List Bytes) (data : Bytes) : List Bytes :=
  cstr (line1024 "MAIL FROM:<" tp.name) ::
    (toList.map (fun to_ => cstr (line1024 "RCPT TO:<" to_)) ++ [bytes "DATA\r\n", cstr data])

theorem requests_texts (tp : Tp) (toList : List Bytes) (data : Bytes) :
    (requests tp toList data).map (fun r => cstr r.text) = texts tp toList data := by
  simp only [requests, texts, List.map_cons, List.map_append, List.map_map]
  rfl

theorem length_texts (tp : Tp) (toList : List Bytes) (data : Bytes) :
    (texts tp toList data).length = toList.length + 3 := by simp [texts]

/-- The texts before the payload. -/
def sentLines (tp : Tp) (toList : List Bytes) : List Bytes :=
  cstr (line1024 "MAIL FROM:<" tp.name) ::
    (toList.map (fun to_ => cstr (line1024 "RCPT TO:<" to_)) ++ [bytes "DATA\r\n"])

theorem texts_eq (tp : Tp) (toList : List Bytes) (data : Bytes) :
    texts tp toList data = sentLines tp toList ++ [cstr data] := by
  simp [texts, sentLines]

/-- The commands are sent whole. -/
theorem SentFor.message {tp : Tp} {toList : List Bytes} {data : Bytes} {ts : List Bytes}
    (h : SentFor ((requests tp toList data).map Request.text) ts) :
    ∃ tls x, ts = sentLines tp toList ++ [sent tls data x] := by
  have hcut : (requests tp toList data).map Request.text = (line1024 "MAIL FROM:<" tp.name ::
      (toList.map (line1024 "RCPT TO:<") ++ [bytes "DATA\r\n"])) ++ [data] := by
    simp [requests, dataRequests, mailRequest, rcptRequest, simple]
  rw [hcut] at h
  have hshort : ∀ u ∈ line1024 "MAIL FROM:<" tp.name ::
      (toList.map (line1024 "RCPT TO:<") ++ [bytes "DATA\r\n"]), (cstr u).length < 2 ^ 31 := by
    rw [List.forall_mem_cons, List.forall_mem_append, List.forall_mem_map, List.forall_mem_singleton]
    refine ⟨(short_line1024 (by decide) _).2, fun to_ _ => (short_line1024 (by decide) to_).2, by decide⟩
  obtain ⟨tls, x, rfl⟩ := h.whole hshort
  refine ⟨tls, x, ?_⟩
  rw [List.map_cons, List.map_append, List.map_map]
  rfl

section
variable (tls : Bool) (tp : Tp) (toList : List Bytes) (data : Bytes) (sends : List Send)
  (answers : List Answer)

theorem requests_length : (requests tp toList data).length = toList.length + 3 := by
  simp [requests, dataRequests]

theorem granted_mail : GrantedAt tls (requests tp toList data) sends answers 0 ↔
    Obeyed [code250] sends[0]? answers[0]? := by
  rw [← granted_iff_obeyed (@short_line1024 "MAIL FROM:<" (by decide) tp.name).1 tls]
  simp [GrantedAt, requests, mailRequest, simple, Request.codes]

theorem granted_rcpt {i : ℕ} (h : i < toList.length) :
    GrantedAt tls (requests tp toList data) sends answers (i + 1) ↔
      Obeyed [code250, code251] sends[i + 1]? answers[i + 1]? := by
  rw [← granted_iff_obeyed (@short_line1024 "RCPT TO:<" (by decide) toList[i]).1 tls]
  simp [GrantedAt, requests, List.getElem?_append, h, rcptRequest, Request.codes]

theorem granted_data : GrantedAt tls (requests tp toList data) sends answers (toList.length + 1) ↔
    Obeyed [code354] sends[toList.length + 1]? answers[toList.length + 1]? := by
  have hlen : 0 < lenOf (bytes "DATA\r\n") := by
    rw [lenOf_of_lt (by decide)]
    decide
  rw [← granted_iff_obeyed hlen tls]
  simp [GrantedAt, requests, dataRequests, simple, Request.codes]

theorem granted_payload : GrantedAt tls (requests tp toList data) sends answers (toList.length + 2) ↔
    Granted tls data [code250] sends[toList.length + 2]? answers[toList.length + 2]? := by
  simp [GrantedAt, requests, dataRequests, simple, Request.codes]

/-- The first requests are granted: MAIL, and the first recipients. -/
theorem granted_first {m : ℕ} (h : m ≤ toList.length) :
    (∀ i < m + 1, GrantedAt tls (requests tp toList data) sends answers i) ↔
      Obeyed [code250] sends[0]? answers[0]? ∧
        ∀ i < m, Obeyed [code250, code251] sends[i + 1]? answers[i + 1]? := by
  rw [Nat.forall_lt_succ_left', granted_mail]
  refine and_congr_right fun _ => forall₂_congr fun i hi => ?_
  exact granted_rcpt tls tp toList data sends answers (Nat.lt_of_lt_of_le hi h)

/-- MAIL, all recipients and DATA are accepted. -/
def GoesAhead (toList : List Bytes) (sends : List Send) (answers : List Answer) : Prop :=
  Obeyed [code250] sends[0]? answers[0]? ∧
    (∀ i < toList.length, Obeyed [code250, code251] sends[i + 1]? answers[i + 1]?) ∧
    Obeyed [code354] sends[toList.length + 1]? answers[toList.length + 1]?

/-- The requests up to the payload are granted. -/
theorem granted_all :
    ((∀ i < toList.length + 2, GrantedAt tls (requests tp toList data) sends answers i) ↔
      GoesAhead toList sends answers) ∧
    ((∀ i < toList.length + 3, GrantedAt tls (requests tp toList data) sends answers i) ↔
      GoesAhead toList sends answers ∧
        Granted tls data [code250] sends[toList.length + 2]? answers[toList.length + 2]?) := by
  have hfirst := granted_first tls tp toList data sends answers (Nat.le_refl _)
  unfold GoesAhead
  constructor
  · rw [Nat.forall_lt_succ_right, hfirst, granted_data, and_assoc]
  · rw [Nat.forall_lt_succ_right, Nat.forall_lt_succ_right, hfirst, granted_data, granted_payload]
    simp only [and_assoc]

end

section
variable {tp : Tp} {toList : List Bytes} {data : Bytes} {answers : List Answer}

/-- The request behind the granted ones is sent as well. -/
theorem Outcome.le_iff {rs : List Request} {w : Session} {k j : ℕ} {r : Bool × Session}
    (h : Outcome rs w answers k r) (hj : j ≤ rs.length) :
    j ≤ k ↔ ∀ i < j, GrantedAt w.ssl rs w.sends answers i := by
  constructor
  · intro hle i hi
    exact h.granted i (Nat.lt_of_lt_of_le hi hle)
  · intro hall
    by_contra hlt
    have hkj : k < j := Nat.not_le.1 hlt
    exact h.refused (Nat.lt_of_lt_of_le hkj hj) (hall k hkj)

/-- What `tpSendMail` makes of a message, from MAIL on. -/
structure AllOrNothing (tls : Bool) (tp : Tp) (toList : List Bytes) (data : Bytes) (sends : List Send)
    (answers : List Answer) (log : List Event) (r : Bool × Session) : Prop where
  /-- The requests are sent in their order. -/
  sent : written log <+: texts tp toList data
  /-- RCPT is sent for a recipient iff MAIL and all recipients before it are accepted. -/
  rcpt : ∀ m < toList.length, m + 1 < (written log).length ↔
    Obeyed [code250] sends[0]? answers[0]? ∧
      ∀ i < m, Obeyed [code250, code251] sends[i + 1]? answers[i + 1]?
  /-- The payload is sent as well iff MAIL, all recipients and DATA are accepted. -/
  payload : written log = texts tp toList data ↔ GoesAhead toList sends answers
  /-- It returns 1 iff the payload is accepted, too. -/
  ret : r.1 = true ↔ GoesAhead toList sends answers ∧
    Granted tls data [code250] sends[toList.length + 2]? answers[toList.length + 2]?
  /-- If it returns 0 and the last request was answered, the error text is the last
      line of the answer. -/
  err : r.1 = false → ∀ k text R, (written log).length = k + 1 → (texts tp toList data)[k]? = some text →
    Taken tls text sends[k]? → answers[k]? = some (.reply R) → cstr r.2.err = R.final

/-- A message, from MAIL on: its requests, as far as they are granted. -/
theorem tpSendMail_run (toList : List Bytes) (data : Bytes) {how : GetConn} {w w₁ : Session}
    (hready : how.ready tp w = (true, w₁)) (hn : w₁.net.Answers answers) : ∃ k log tls x,
      Outcome (requests tp toList data) w₁ answers k (tpSendMail tp toList data how w) ∧
        (tpSendMail tp toList data how w).2.log = w₁.log ++ log ∧
        written log = (sentLines tp toList ++ [sent tls data x]).take (k + 1) := by
  have hrun : tpSendMail tp toList data how w =
      runOps ((requests tp toList data).flatMap Request.ops) w₁ := by
    rw [tpSendMail_eq, Cmd.and, hready, transaction_eq, mailOps_eq]
  rw [hrun]
  obtain ⟨k, hk⟩ := requests_run (requests tp toList data) hn
  obtain ⟨log, ts, hlog, hts, hwritten⟩ := hk.sent
  obtain ⟨tls, x, rfl⟩ := hts.message
  exact ⟨k, log, tls, x, hk, hlog, hwritten⟩

/-- A run that writes the texts up to the first request that is not granted is all or
    nothing. -/
theorem Outcome.allOrNothing {w : Session} {k : ℕ} {log : List Event} {r : Bool × Session}
    (h : Outcome (requests tp toList data) w answers k r)
    (htake : written log = (texts tp toList data).take (k + 1)) :
    AllOrNothing w.ssl tp toList data w.sends answers log r := by
  have hreqs := requests_length tp toList data
  have hle := h.le
  have hlen : (written log).length = min (k + 1) (toList.length + 3) := by
    rw [htake, List.length_take, length_texts]
  refine ⟨?_, ?_, ?_, ?_, ?_⟩
  · rw [htake]
    exact List.take_prefix _ _
  · intro m hm
    rw [← granted_first w.ssl tp toList data _ _ (Nat.le_of_lt hm), ← h.le_iff (by omega)]
    omega
  · rw [← (granted_all w.ssl tp toList data _ _).1, ← h.le_iff (by omega)]
    constructor
    · intro hw
      rw [hw, length_texts] at hlen
      omega
    · intro hk
      rw [htake, List.take_of_length_le (by rw [length_texts]; omega)]
  · rw [← (granted_all w.ssl tp toList data _ _).2, ← h.le_iff (by omega), h.ret]
    omega
  · intro hfalse k' text R hk' htext hs hy
    have hlt : k < (requests tp toList data).length := by
      refine Nat.lt_of_le_of_ne hle fun heq => ?_
      rw [h.ret.2 heq] at hfalse
      cases hfalse
    obtain rfl : k' = k := by omega
    have hq := List.getElem?_eq_getElem hlt
    rw [← requests_texts, List.getElem?_map, hq, Option.map_some, Option.some.injEq] at htext
    refine h.err _ R hq ?_ hy
    rw [← htext, Taken, lenOf_cstr] at hs
    exact hs

/-- **Delivery is all or nothing**, and the first failure is reported, iff the
    payload is short or is not let come. -/
theorem all_or_nothing_iff (toList : List Bytes) (data : Bytes) {how : GetConn} {w w₁ : Session}
    (hready : how.ready tp w = (true, w₁)) (hn : w₁.net.Answers answers) : ∃ log,
      (tpSendMail tp toList data how w).2.log = w₁.log ++ log ∧
        (AllOrNothing w₁.ssl tp toList data w₁.sends answers log (tpSendMail tp toList data how w) ↔
          (GoesAhead toList w₁.sends answers → (cstr data).length < 2 ^ 31)) := by
  obtain ⟨k, log, tls, x, hk, hlog, hwritten⟩ := tpSendMail_run toList data hready hn
  refine ⟨log, hlog, ?_⟩
  have hgo : toList.length + 2 ≤ k ↔ GoesAhead toList w₁.sends answers := by
    rw [← (granted_all w₁.ssl tp toList data _ _).1, ← hk.le_iff (by rw [requests_length]; omega)]
  have hlines : (sentLines tp toList).length = toList.length + 2 := by simp [sentLines]
  constructor
  · intro hall hahead
    have htexts := hall.payload.2 hahead
    have hk2 := hgo.2 hahead
    rw [hwritten, texts_eq, List.take_of_length_le (by simp [hlines]; omega)] at htexts
    have hlast := List.append_cancel_left htexts
    exact (sent_eq_iff tls data x).1 (List.cons.inj hlast).1
  · intro hshort
    refine hk.allOrNothing ?_
    rw [hwritten, texts_eq]
    by_cases hahead : toList.length + 2 ≤ k
    · rw [(sent_eq_iff tls data x).2 (hshort (hgo.1 hahead))]
    · rw [List.take_append_of_le_length (by omega), List.take_append_of_le_length (by omega)]

end

/-! ## Two recipients -/

/-- An idle connection on which RSET is accepted, and what the server replies then. -/
def idleSession (sends : List Send) (codes : List Code) : Session :=
  ⟨false, .all :: sends, lineReads (code250 :: codes), [], [], []⟩

/-- The replies as answers. -/
def lineAnswers (codes : List Code) : List Answer := codes.map fun c => .reply (lineReply c)

theorem ready_idle (tp : Tp) (sends : List Send) (codes : List Code) : ∃ w₁,
    GetConn.ready tp .reused (idleSession sends codes) = (true, w₁) ∧ w₁.ssl = false ∧ w₁.sends = sends ∧
      w₁.net.Answers (lineAnswers codes) := by
  have himp := implements_runOps proper_rset (idleSession sends codes)
  have hwalk : walk (rsetOps.map Op.step) (idleSession sends codes).net =
      .ok ⟨false, sends, lineReads codes, []⟩ := rfl
  rw [hwalk, ← smtpRSET_eq] at himp
  obtain ⟨hret, hnet⟩ := himp
  refine ⟨(smtpRSET (idleSession sends codes)).2, Prod.ext hret rfl, congrArg Net.ssl hnet,
    congrArg Net.sends hnet, ?_⟩
  rw [hnet, Net.Answers, lineAnswers, lineReads, List.map_map]
  rfl

/-- MAIL is accepted, the first recipient is forwarded and the second one refused. -/
theorem all_or_nothing_two : ∃ log w₁,
    GetConn.ready tpPlain .reused (idleSession [.all, .all, .all] [code250, code251, code550]) = (true, w₁) ∧
    (tpSendMail tpPlain [bytes "a", bytes "b"] (bytes "x") .reused
      (idleSession [.all, .all, .all] [code250, code251, code550])).2.log = w₁.log ++ log ∧
    AllOrNothing false tpPlain [bytes "a", bytes "b"] (bytes "x") [.all, .all, .all]
      (lineAnswers [code250, code251, code550]) log
      (tpSendMail tpPlain [bytes "a", bytes "b"] (bytes "x") .reused
        (idleSession [.all, .all, .all] [code250, code251, code550])) := by
  obtain ⟨w₁, hready, hssl, hsends, hn⟩ := ready_idle tpPlain [.all, .all, .all] [code250, code251, code550]
  obtain ⟨log, hlog, hiff⟩ := all_or_nothing_iff [bytes "a", bytes "b"] (bytes "x") hready hn
  rw [hssl, hsends] at hiff
  exact ⟨log, w₁, hready, hlog, hiff.2 fun _ => by decide⟩

/-! ## A payload of more than 2^32 bytes -/

/-- What a server replies that accepts a message to `n` recipients. -/
def acceptingCodes (n : ℕ) : List Code := code250 :: (List.replicate n code250 ++ [code354, code250])

/-- An idle connection on which every step of that message is accepted. -/
def acceptingSession (n : ℕ) : Session := idleSession (List.replicate (n + 3) .all) (acceptingCodes n)

theorem run_accepting (tp : Tp) (toList : List Bytes) (data : Bytes) : ∃ w₁ log tls x,
    GetConn.ready tp .reused (acceptingSession toList.length) = (true, w₁) ∧
      (tpSendMail tp toList data .reused (acceptingSession toList.length)).1 = true ∧
      (tpSendMail tp toList data .reused (acceptingSession toList.length)).2.log = w₁.log ++ log ∧
      written log = sentLines tp toList ++ [sent tls data x] ∧
      GoesAhead toList (List.replicate (toList.length + 3) .all)
        (lineAnswers (acceptingCodes toList.length)) := by
  obtain ⟨w₁, hready, hssl, hsends, hn⟩ :=
    ready_idle tp (List.replicate (toList.length + 3) .all) (acceptingCodes toList.length)
  obtain ⟨k, log, tls, x, hk, hlog, hwritten⟩ := tpSendMail_run toList data hready hn
  have hlen := requests_length tp toList data
  have hahead : GoesAhead toList w₁.sends (lineAnswers (acceptingCodes toList.length)) := by
    rw [hsends]
    have hsend : ∀ i < toList.length + 3, (List.replicate (toList.length + 3) Send.all)[i]? = some .all :=
      fun i hi => List.getElem?_replicate_of_lt hi
    refine ⟨⟨hsend _ (by omega), lineReply code250, rfl, List.mem_singleton.2 rfl⟩, fun i hi => ?_, ?_⟩
    · refine ⟨hsend _ (by omega), lineReply code250, ?_, List.mem_cons_self⟩
      simp [lineAnswers, acceptingCodes, List.getElem?_append, hi]
    · refine ⟨hsend _ (by omega), lineReply code354, ?_, List.mem_singleton.2 rfl⟩
      simp [lineAnswers, acceptingCodes]
  have hpay : Granted w₁.ssl data [code250] w₁.sends[toList.length + 2]?
      (lineAnswers (acceptingCodes toList.length))[toList.length + 2]? := by
    rw [hsends, hssl]
    refine ⟨⟨.all, by simp, rfl⟩, lineReply code250, ?_, List.mem_singleton.2 rfl⟩
    simp [lineAnswers, acceptingCodes]
  have hall := (granted_all w₁.ssl tp toList data w₁.sends _).2.2 ⟨hahead, hpay⟩
  have hk3 : k = (requests tp toList data).length :=
    Nat.le_antisymm hk.le ((hk.le_iff (Nat.le_refl _)).2 (by rw [hlen]; exact hall))
  rw [List.take_of_length_le (by rw [hk3, hlen]; simp [sentLines])] at hwritten
  rw [hsends] at hahead
  exact ⟨w₁, log, tls, x, hready, hk.ret.2 hk3, hlog, hwritten, hahead⟩

/-- The payload `x`, its end mark, and 2^32 bytes more up to another one. -/
def wrapped : Bytes := bytes "x\r\n.\r\n" ++ (List.replicate 4294967291 121 ++ endMark)

theorem cstr_wrapped : cstr wrapped = wrapped ∧ (cstr wrapped).length = 6 + 2 ^ 32 := by
  have hfree : NulFree wrapped := by
    refine NulFree.append (by decide) (NulFree.append (fun h => ?_) (by decide))
    exact absurd (List.eq_of_mem_replicate h) (by decide)
  have hlen : wrapped.length = 6 + 2 ^ 32 := by
    rw [wrapped, List.length_append, List.length_append, List.length_replicate]
    decide
  exact ⟨cstr_of_nulFree hfree, by rw [cstr_of_nulFree hfree, hlen]⟩

theorem sent_wrapped (tls : Bool) (x : Send) : sent tls wrapped x = bytes "x\r\n.\r\n" := by
  have hlenOf : lenOf wrapped = (6 : ℕ) := by
    rw [lenOf, cstr_wrapped.2]
    exact intOf_add_eq_iff.2 ⟨by decide, Nat.dvd_refl _⟩
  rw [sent_of_nonneg (by omega), hlenOf, Int.toNat_natCast, cstr_wrapped.1, wrapped]
  exact List.take_left' rfl

/-- **A payload whose length is no `int`**: six bytes of it are sent and accepted, and
    the message is taken for sent. -/
theorem payload_wrapped : ∃ w₁ log,
    GetConn.ready tpPlain .reused (acceptingSession 1) = (true, w₁) ∧
    (tpSendMail tpPlain [bytes "a"] wrapped .reused (acceptingSession 1)).2.log = w₁.log ++ log ∧
    written log = sentLines tpPlain [bytes "a"] ++ [bytes "x\r\n.\r\n"] ∧
    (tpSendMail tpPlain [bytes "a"] wrapped .reused (acceptingSession 1)).1 = true ∧
    ¬ AllOrNothing false tpPlain [bytes "a"] wrapped (List.replicate 4 .all)
      (lineAnswers (acceptingCodes 1)) log
      (tpSendMail tpPlain [bytes "a"] wrapped .reused (acceptingSession 1)) := by
  obtain ⟨w₁, log, tls, x, hready, hret, hlog, hwritten, hahead⟩ := run_accepting tpPlain [bytes "a"] wrapped
  rw [sent_wrapped] at hwritten
  refine ⟨w₁, log, hready, hlog, hwritten, hret, fun h => ?_⟩
  have htexts := h.payload.2 hahead
  rw [hwritten, texts_eq] at htexts
  have hlast := congrArg List.length (List.cons.inj (List.append_cancel_left htexts)).1
  rw [cstr_wrapped.2, show (bytes "x\r\n.\r\n").length = 6 from rfl] at hlast
  omega

end SmtpProxy
