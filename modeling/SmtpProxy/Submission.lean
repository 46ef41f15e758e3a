/-
  A mail on its way from the PHP client through the proxy to the server.

  A `Submission` is what `sendRawMail` is called with, such that it fits into the
  lines of SMTP, is encoded transparently, and its length is an `int`.  `sendRawMail.finish` is the end of
  the source: whether it returns or throws, from the line it reads.

  * `Submission.request_eq`: the request, taken apart;
  * `arrived_tpSendMail`: what may have reached the server of a connection is a
    part of the lines of the message, and all of them if `tpSendMail` returns 1;
  * `submitted`: however the requests of a client are read, at most its mail is
    stored for each, and just this mail if `sendRawMail` returns.
-/
import SmtpProxy.CommandLines
import SmtpProxy.Lib.Lines
import SmtpProxy.Mailbox
import SmtpProxy.Transparency

namespace SmtpProxy

open CString Search

/-! ## The source -/

/-- PHP's `fgets($this->fp, 1024)`, of what the proxy has written; `none` for
    `false`. -/
def sendRawMail.fgets (res : Bytes) : Option Bytes :=
  if res = [] then none else some (Lines.next 10 1023 res).1

/-- The end of `sendRawMail` (lines 46 to 57): the text of what it throws. -/
def sendRawMail.finish (timed_out : Bool) (response : Option Bytes) : Except Bytes Unit :=
  if timed_out then .error (bytes "read response timed out")
  else match response with
    | none => .error (bytes "read response error")
    | some response => if ¬ bytes "250" <+: response then .error (response.drop 4) else .ok ()

/-- What `sendRawMail` is called with. -/
structure Submission where
  from_ : Bytes
  to_ : To
  rawHeader : Bytes
  rawBody : Bytes
  sender : NulFree from_ ∧ ¬ crlf <:+: from_ ∧ from_.length ≤ 1009
  recipients : to_.recipients ≠ [] ∧
    ∀ r ∈ to_.recipients, (NulFree r ∧ ¬ crlf <:+: r ∧ r ≠ dataWord) ∧ r.length ≤ 1011
  nulFree : NulFree rawHeader ∧ NulFree rawBody
  encodable : Encodable to_ rawHeader rawBody
  short : (sendRawMail from_ to_ rawHeader rawBody).length < 2 ^ 31

/-! ## The request -/

theorem nulFree_lf {s : Bytes} (h : NulFree s) : NulFree (lf s) := by
  induction s using crlf_induction with
  | nil => exact h
  | mark s ih =>
    rw [lf_crlf]
    simp only [NulFree, List.mem_cons, not_or] at h ih ⊢
    exact ⟨by decide, ih h.2.2⟩
  | char c s hc ih =>
    rw [lf_cons hc]
    simp only [NulFree, List.mem_cons, not_or] at h ih ⊢
    exact ⟨h.1, ih h.2⟩

theorem nulFree_trim {s : Bytes} (h : NulFree s) : NulFree (trim s) := by
  intro h0
  refine h ((List.dropWhile_suffix (l := s) trimmed).subset ?_)
  exact List.mem_reverse.1 ((List.dropWhile_suffix _).subset (List.mem_reverse.1 h0))

theorem nulFree_pieces : ∀ {ps : List Bytes}, NulFree ([10].intercalate ps) → ∀ p ∈ ps, NulFree p
  | [], _ => nofun
  | [p], h => by simpa using h
  | p :: q :: ps, h => by
    rw [List.intercalate_cons_cons] at h
    obtain ⟨hp, hps⟩ := nulFree_append.1 h
    exact List.forall_mem_cons.2 ⟨(nulFree_append.1 hp).1, nulFree_pieces hps⟩

namespace Submission
variable (m : Submission)

def request : Bytes := sendRawMail m.from_ m.to_ m.rawHeader m.rawBody

/-- The mail that is to be stored. -/
def mail : Mail := ⟨m.from_, m.to_.recipients, SmtpProxy.mail m.rawHeader m.rawBody⟩

theorem nulFree_dataLines {hs bs : List Bytes} (hh : IsSplit [10] (lf (trim m.rawHeader)) hs)
    (hb : IsSplit [10] (lf (trim m.rawBody)) bs) : ∀ l ∈ dataLines hs bs, NulFree l := by
  have hhs : ∀ l ∈ hs, NulFree l :=
    nulFree_pieces (hh.join.symm ▸ nulFree_lf (nulFree_trim m.nulFree.1))
  have hbs : ∀ l ∈ bs, NulFree l :=
    nulFree_pieces (hb.join.symm ▸ nulFree_lf (nulFree_trim m.nulFree.2))
  intro l hl
  rcases List.mem_append.1 hl with hl | hl
  · exact hhs l hl
  · rcases List.mem_cons.1 hl with rfl | hl
    · exact List.not_mem_nil
    · cases bs with
      | nil => exact absurd rfl hb.ne
      | cons b bs =>
        rcases List.mem_cons.1 hl with rfl | hl
        · exact hbs _ List.mem_cons_self
        · obtain ⟨y, hy, rfl⟩ := List.mem_map.1 hl
          intro h0
          rcases mem_stuff h0 with h0 | h0
          · cases h0
          · exact hbs y (List.mem_cons_of_mem _ hy) h0

/-- **The request**, and the mail in its payload. -/
theorem request_eq : ∃ d, m.request = SmtpProxy.request m.from_ m.to_.recipients d ∧ NulFree d ∧
    Payload d ∧ content d = SmtpProxy.mail m.rawHeader m.rawBody ∧ EndsOnce endMark m.request := by
  obtain ⟨hs, hh⟩ := exists_isSplit (List.cons_ne_nil 10 []) (lf (trim m.rawHeader))
  obtain ⟨bs, hb⟩ := exists_isSplit (List.cons_ne_nil 10 []) (lf (trim m.rawBody))
  have hfree := dataLines_free hh hb
  have henc := (encodable_iff hh hb).1 m.encodable
  have hdot := dot_notIn_dataLines hb.ne henc.2
  have hne : dataLines hs bs ≠ [] := by simp [dataLines]
  have hd : crlf.intercalate (dataLines hs bs) ++ endMark = text (dataLines hs bs ++ [[46]]) := by
    have hend : text (dataLines hs bs) = crlf.intercalate (dataLines hs bs) ++ crlf := by
      rw [text_eq, intercalate_append hne (by simp)]
      simp
    rw [text_append, hend, List.append_assoc]
    rfl
  refine ⟨crlf.intercalate (dataLines hs bs) ++ endMark, ?_, ?_, ⟨_, hfree, hdot, hd⟩, ?_, ?_⟩
  · have hsplit : m.from_ :: (m.to_.recipients ++ dataWord :: dataLines hs bs) =
        (m.from_ :: m.to_.recipients) ++ ([dataWord] ++ dataLines hs bs) := by simp
    rw [request, sendRawMail_eq hh hb, SmtpProxy.request_eq _ m.recipients.1, hsplit,
      intercalate_append (by simp) (by simp), intercalate_append (by simp) hne, List.intercalate_singleton]
    simp [dataMark]
  · have hend : NulFree endMark := by decide
    exact (nulFree_intercalate (m.nulFree_dataLines hh hb)).append hend
  · rw [content, hd, lines_payload hfree, List.dropLast_concat, (strip_dataLines hb.ne).2 henc.2,
      mail_eq hh hb]
  · have hto : ∀ r ∈ m.to_.recipients, ¬ crlf <:+: r := fun r hr => (m.recipients.2 r hr).1.2.1
    have hnil : ∀ p ∈ ([] : List Bytes), p ∈ dataWord :: m.to_.recipients :=
      fun _ hp => absurd hp List.not_mem_nil
    exact ((transparent_lines hh hb m.sender.2.1 hto hnil).2 ⟨m.encodable, rfl⟩).1

theorem request_nulFree : NulFree m.request := by
  obtain ⟨d, hreq, hd, -⟩ := m.request_eq
  rw [hreq, SmtpProxy.request_eq _ m.recipients.1]
  refine ((nulFree_intercalate fun p hp => ?_).append dataMark_nulFree).append hd
  rcases List.mem_cons.1 hp with rfl | hp
  · exact m.sender.1
  · exact (m.recipients.2 p hp).1.1

/-- A request is one message to `handleClient`. -/
theorem request_framed : EndsOnce endMark m.request ∧ 5 < m.request.length := by
  obtain ⟨d, hreq, -, -, -, hends⟩ := m.request_eq
  refine ⟨hends, ?_⟩
  have hmark : dataMark.length = 8 := by decide
  rw [hreq, SmtpProxy.request, List.length_append, List.length_append, hmark]
  omega

end Submission

/-! ## What has been written -/

/-- The bytes that may have reached the server: of a write that failed, a part. -/
def Arrived : List Event → Bytes → Prop
  | [], bs => bs = []
  | .wrote _ data ok :: es, bs =>
    ∃ q r, bs = q ++ r ∧ (if ok then q = data else q <+: data) ∧ Arrived es r
  | .expected _ _ :: es, bs => Arrived es bs

/-- A call tells one event, if any. -/
theorem op_log {o : Op} (hshort : o.Short) (w : Session) : ∃ l, (o.cmd w).2.log = w.log ++ l ∧
    ∀ es bs, Arrived (l ++ es) bs → ∃ q r, bs = q ++ r ∧ q <+: stream [o] ∧
      ((o.cmd w).1 = true → q = stream [o]) ∧ Arrived es r := by
  cases o with
  | hand =>
    refine ⟨[], ?_, fun es bs h => ⟨[], bs, rfl, List.nil_prefix, fun _ => rfl, h⟩⟩
    obtain ⟨ssl, sends, recvs, hands, err, log⟩ := w
    rcases hands with _ | ⟨_ | _, hs⟩
    · exact (List.append_nil _).symm
    · exact (List.append_nil _).symm
    · exact (List.append_nil _).symm
  | write data =>
    have htext : stream [.write data] = sent w.ssl data w.nextSend.1 := by
      rw [(sent_eq_iff _ data _).2 (of_decide_eq_true hshort)]
      exact List.append_nil _
    refine ⟨_, (smtpWrite_log data w).1, fun es bs h => ?_⟩
    obtain ⟨q, r, rfl, hq, hr⟩ := h
    rw [htext]
    refine ⟨q, r, rfl, ?_, fun hok => ?_, hr⟩
    · split at hq
      · rw [hq]
      · exact hq
    · rw [Op.cmd] at hok
      rwa [if_pos hok] at hq
  | expect code =>
    refine ⟨_, (smtpExpect_log code w).1, fun es bs h => ?_⟩
    exact ⟨[], bs, rfl, List.nil_prefix, fun _ => rfl, h⟩
  | either code code' =>
    refine ⟨_, by rw [Op.cmd, Cmd.orCode_snd, (smtpExpect_log code w).1], fun es bs h => ?_⟩
    exact ⟨[], bs, rfl, List.nil_prefix, fun _ => rfl, h⟩
  | fail text =>
    exact ⟨[], (List.append_nil _).symm, fun es bs h => ⟨[], bs, rfl, List.nil_prefix, fun _ => rfl, h⟩⟩

/-- **Calls**: a part of what they write arrives, and all of it if they succeed. -/
theorem arrived_runOps {os : List Op} (hshort : ∀ o ∈ os, o.Short) (w : Session) :
    ∃ l, (runOps os w).2.log = w.log ++ l ∧
      ∀ bs, Arrived l bs → bs <+: stream os ∧ ((runOps os w).1 = true → bs = stream os) := by
  induction os generalizing w with
  | nil =>
    refine ⟨[], (List.append_nil _).symm, fun bs h => ?_⟩
    rw [show bs = [] from h]
    exact ⟨List.prefix_rfl, fun _ => rfl⟩
  | cons o os ih =>
    obtain ⟨hso, hsos⟩ := List.forall_mem_cons.1 hshort
    have hcons : stream (o :: os) = stream [o] ++ stream os := @stream_append [o] os
    obtain ⟨l, hl, hone⟩ := op_log hso w
    rw [hcons, runOps, Cmd.and]
    rcases ho : o.cmd w with ⟨_ | _, w'⟩
    · rw [ho] at hl
      refine ⟨l, hl, fun bs h => ?_⟩
      obtain ⟨q, r, rfl, hq, -, hr⟩ := hone [] bs (by rwa [List.append_nil])
      rw [show r = [] from hr, List.append_nil]
      exact ⟨hq.trans (List.prefix_append _ _), fun hok => absurd hok Bool.false_ne_true⟩
    · rw [ho] at hl hone
      obtain ⟨l', hl', hrest⟩ := ih hsos w'
      refine ⟨l ++ l', by rw [← List.append_assoc, ← hl, ← hl'], fun bs h => ?_⟩
      obtain ⟨q, r, rfl, -, hq, hr⟩ := hone l' bs h
      obtain ⟨hpre, hall⟩ := hrest r hr
      rw [hq rfl]
      exact ⟨(List.prefix_append_right_inj _).2 hpre, fun hok => by rw [hall hok]⟩

/-- The calls before a mail. -/
def GetConn.readyOps (tp : Tp) : GetConn → List Op
  | .reused => rsetOps
  | .new true => ehloOps tp ++ authOps tp
  | _ => []

/-- **What may have reached the server** of the commands and the payload of a message. -/
theorem arrived_tpSendMail {tp : Tp} (hauth : tp.ShortAuth) (toList : List Bytes) {data : Bytes}
    (hdata : (cstr data).length < 2 ^ 31) (how : GetConn) {w : Session} (hlog : w.log = []) {bs : Bytes}
    (h : Arrived (tpSendMail tp toList data how w).2.log bs) :
    bs <+: stream (how.readyOps tp ++ mailOps tp toList data) ∧
      ((tpSendMail tp toList data how w).1 = true →
        bs = stream (how.readyOps tp ++ mailOps tp toList data)) := by
  have fails : ∀ text, Arrived (Cmd.fail text w).2.log bs → bs = [] := by
    intro text h
    have hsame : (Cmd.fail text w).2.log = [] := hlog
    rwa [hsame] at h
  have runs : ∀ os, (∀ o ∈ os, o.Short) → ∀ w', w'.log = [] →
      Arrived (runOps (os ++ mailOps tp toList data) w').2.log bs →
        bs <+: stream (os ++ mailOps tp toList data) ∧
        ((runOps (os ++ mailOps tp toList data) w').1 = true → bs = stream (os ++ mailOps tp toList data)) := by
    intro os hos w' hw' h
    obtain ⟨l, hl, hall⟩ := arrived_runOps (List.forall_mem_append.2 ⟨hos, short_mail tp toList hdata⟩) w'
    rw [hl, hw', List.nil_append] at h
    exact hall bs h
  cases how with
  | busy =>
    rw [fails _ h]
    exact ⟨List.nil_prefix, fun hok => absurd hok Bool.false_ne_true⟩
  | reused =>
    have heq : tpSendMail tp toList data .reused = runOps (rsetOps ++ mailOps tp toList data) := by
      rw [runOps_append, ← smtpRSET_eq, ← transaction_eq]
      rfl
    rw [heq] at h ⊢
    exact runs _ (Round.short_ops tp (x := .rset) trivial) w hlog h
  | new connected =>
    cases connected with
    | false =>
      rw [fails _ h]
      exact ⟨List.nil_prefix, fun hok => absurd hok Bool.false_ne_true⟩
    | true =>
      have heq : tpSendMail tp toList data (.new true) w =
          runOps (ehloOps tp ++ authOps tp ++ mailOps tp toList data) { w with ssl := false } := by
        rw [runOps_append, runOps_append, ← smtpEHLO_eq, ← smtpAuth_eq, ← transaction_eq]
        rfl
      rw [heq] at h ⊢
      exact runs _ (short_setup hauth) { w with ssl := false } hlog h

section
variable {tp : Tp} {b : Mailbox} {toList : List Bytes} {data bs : Bytes}

/-- What comes before a mail leaves none. -/
theorem intake_ready (hname : tp.Fits) (how : GetConn) (hb : b.mode = .command) :
    (∃ b', b.intake (stream (how.readyOps tp)) = ⟨[], b'⟩ ∧ b'.mode = .command ∧ b'.mails = b.mails) ∧
      ∀ q, q <+: stream (how.readyOps tp) → (b.after q).mails = b.mails := by
  have hnil : (∃ b', b.intake (stream []) = ⟨[], b'⟩ ∧ b'.mode = .command ∧ b'.mails = b.mails) ∧
      ∀ q, q <+: stream [] → (b.after q).mails = b.mails := by
    refine ⟨⟨b, rfl, hb, rfl⟩, fun q hq => ?_⟩
    rw [List.prefix_nil.1 hq]
    rfl
  cases how with
  | busy => exact hnil
  | reused =>
    have hfits : Round.rset.Fits := trivial
    obtain ⟨b', hb', hmode, hmails⟩ := Round.intake_round hname hfits hb
    replace hmails : b'.mails = b.mails := hmails.trans (List.append_nil _)
    refine ⟨⟨b', hb', hmode, hmails⟩, fun q hq => ?_⟩
    by_cases hne : q = stream (Round.rset.ops tp)
    · rw [hne, Mailbox.after, hb', hmails]
    · exact Round.mails_part hname hfits hb hq hne
  | new connected =>
    cases connected with
    | false => exact hnil
    | true =>
      exact ⟨⟨b.reset, Mailbox.after_setup hb, rfl, rfl⟩, fun q hq => Mailbox.mails_setup tp hb hq⟩

/-- **A message at the server**: of a part of it at most the mail is stored, and of
    the whole just the mail. -/
theorem mails_message (hname : tp.Fits) (hfits : (Round.mail toList data).Fits) (how : GetConn)
    (hb : b.mode = .command) {m : Mail} (hm : Round.mail? tp (.mail toList data) = some m)
    (h : bs <+: stream (how.readyOps tp ++ mailOps tp toList data)) :
    ((b.after bs).mails = b.mails ∨ (b.after bs).mails = b.mails ++ [m]) ∧
      (bs = stream (how.readyOps tp ++ mailOps tp toList data) → (b.after bs).mails = b.mails ++ [m]) := by
  obtain ⟨⟨b', hb', hmode, hmails⟩, hready⟩ := intake_ready hname how hb
  obtain ⟨b'', hb'', -, hmails''⟩ := Round.intake_round hname hfits hmode
  rw [stream_append] at h ⊢
  have hrest : ∀ q, b.after (stream (how.readyOps tp) ++ q) = b'.after q := by
    intro q
    rw [Mailbox.after, Mailbox.intake_append _ _ hb']
    rfl
  have hwhole : (b.after (stream (how.readyOps tp) ++ stream (mailOps tp toList data))).mails =
      b.mails ++ [m] := by
    replace hb'' : b'.intake (stream (mailOps tp toList data)) = ⟨[], b''⟩ := hb''
    rw [hrest, Mailbox.after, hb'', hmails'', hmails, hm]
    rfl
  refine ⟨?_, fun he => he ▸ hwhole⟩
  rcases List.prefix_or_prefix_of_prefix h (List.prefix_append _ _) with hq | ⟨q, rfl⟩
  · exact Or.inl (hready bs hq)
  · rw [List.prefix_append_right_inj] at h
    by_cases hne : q = stream (mailOps tp toList data)
    · exact Or.inr (hne ▸ hwhole)
    · refine Or.inl ?_
      rw [hrest, Round.mails_part hname hfits hmode h hne, hmails]

end

/-! ## From the client to the server -/

section
variable {transports : List Tp} {m : Submission} {buf : Bytes}

/-- What `sendMail` does with the request. -/
theorem respond_submission (hauth : ∀ tp ∈ transports, tp.ShortAuth) (hb : Holds m.request buf) (env : Env) :
    (respond transports buf env).log = [] ∧ Own (response transports buf env) ∨
      ∃ tp data, tp.Fits ∧ (Round.mail m.to_.recipients data).Fits ∧
        Round.mail? tp (.mail m.to_.recipients data) = some m.mail ∧
        (∃ h, IsFirst dataMark (cstr m.request) h (cstr data)) ∧
        respond transports buf env =
          (tpSendMail tp m.to_.recipients data env.how env.session).2 := by
  obtain ⟨d, hreq, hd, hpayload, hcontent, -⟩ := m.request_eq
  obtain ⟨j, rfl⟩ := hb
  have hbuf : m.request ++ List.replicate (j + 1) 0 =
      SmtpProxy.request m.from_ m.to_.recipients d ++ 0 :: List.replicate j 0 := by rw [hreq]; rfl
  have hto : ∀ r ∈ m.to_.recipients, NulFree r ∧ ¬ crlf <:+: r ∧ r ≠ dataWord :=
    fun r hr => (m.recipients.2 r hr).1
  obtain ⟨hret, hsender, hrcpts, hpay⟩ := prepareSendMail_request (List.replicate j 0) env.session.err
    errlen ⟨m.sender.1, m.sender.2.1⟩ m.recipients.1 hto hd
  rw [← hbuf] at hret hsender hrcpts hpay
  generalize m.request ++ List.replicate (j + 1) 0 = buf at *
  simp only [response, respond, sendMail, hret, if_true, hsender, hrcpts]
  cases hfind : findTpByName transports m.from_ with
  | none =>
    refine Or.inl ⟨rfl, own_snprintf ?_ ⟨_, rfl⟩ _⟩
    have h₁ : NulFree (bytes "500 invalid transport, ") := by decide
    have h₂ : NulFree (bytes " not found\r\n") := by decide
    exact (h₁.append m.sender.1).append h₂
  | some tp =>
    have hname : cstr tp.name = m.from_ := by
      have hcmp := List.find?_some hfind
      rw [strcmp_iff, cstr_of_nulFree m.sender.1] at hcmp
      exact hcmp
    have hcstr : ∀ r ∈ m.to_.recipients, cstr r = r := fun r hr => cstr_of_nulFree (hto r hr).1
    have hmap : m.to_.recipients.map cstr = m.to_.recipients := by
      conv_rhs => rw [← List.map_id m.to_.recipients]
      exact List.map_congr_left hcstr
    refine Or.inr ⟨tp, _, ⟨?_, ?_, hauth tp (List.mem_of_find?_eq_some hfind)⟩,
      ⟨m.recipients.1, fun r hr => ?_, ?_, ?_⟩, ?_, ?_, rfl⟩
    · rw [hname]
      exact m.sender.2.1
    · rw [hname]
      exact m.sender.2.2
    · rw [hcstr r hr]
      exact ⟨(hto r hr).2.1, (m.recipients.2 r hr).2⟩
    · rw [← Envelope.payload, hpay]
      exact hpayload
    · rw [← Envelope.payload, hpay]
      have hle := m.short
      rw [← Submission.request, hreq, SmtpProxy.request, List.length_append] at hle
      omega
    · rw [Round.mail?, hname, hmap, ← Envelope.payload, hpay, hcontent]
      rfl
    · have hfirst := isFirst_request d m.sender.2.1 m.recipients.1 fun r hr => (hto r hr).2
      rw [← Envelope.payload, hpay, cstr_of_nulFree m.request_nulFree, hreq]
      exact ⟨_, hfirst⟩

/-- `sendRawMail` returns iff the response begins with 250. -/
theorem finish_ok_iff (res : Bytes) :
    sendRawMail.finish false (sendRawMail.fgets res) = .ok () ↔ bytes "250" <+: res := by
  have hline : bytes "250" <+: (Lines.next 10 1023 res).1 ↔ bytes "250" <+: res := by
    constructor
    · rintro h
      exact h.trans ⟨_, Lines.next_append 1023 res⟩
    · rintro ⟨t, rfl⟩
      have h250 : bytes "250" = [50, 53, 48] := by decide
      rw [h250]
      exact ⟨(Lines.next 10 1020 t).1, by simp [Lines.next]⟩
  unfold sendRawMail.finish sendRawMail.fgets
  by_cases hres : res = []
  · subst hres
    exact iff_of_false (by simp) (by decide)
  · simp only [hres, if_false, Bool.false_eq_true, hline]
    by_cases h : bytes "250" <+: res
    · simp [h]
    · simp [h]

end

/-- A mail for the transport `t`. -/
def submission : Submission where
  from_ := bytes "t"
  to_ := .one (bytes "b")
  rawHeader := bytes "S: x"
  rawBody := bytes "y"
  sender := by decide
  recipients := by decide
  nulFree := by decide
  encodable := ⟨by decide, by decide, by decide⟩
  short := by decide

end SmtpProxy
