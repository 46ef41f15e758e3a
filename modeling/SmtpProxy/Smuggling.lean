/-
  What a client's bytes become at the SMTP server.

  The server reads what follows `DATA` as a message up to the first CRLF.CRLF,
  and what comes behind that as commands.  `Writes log d`: the payload `d` was
  written after an accepted `DATA`.

  * `writes_payload`, `exists_writes`: the payload written for a message is what
    stands behind its DATA line, up to a NUL and as far as one call is given it, and
    some server gets it written;
  * `cuts`: the reads of each message;
  * `payloads_end_iff`: the payloads end with their only CRLF.CRLF, iff no read
    goes on behind the end of a message (`Stops`);
  * `pipelined`: two messages in one read.
-/
import SmtpProxy.SendMail

namespace SmtpProxy

open CString Search

/-! ## The payloads written -/

/-- The payload `d` is written after an accepted `DATA`. -/
def Writes (log : List Event) (d : Bytes) : Prop :=
  ∃ tls ok, [goAhead, .wrote tls d ok] <:+: log

theorem Writes.mem {log : List Event} {d : Bytes} (h : Writes log d) : goAhead ∈ log := by
  obtain ⟨tls, ok, h⟩ := h
  exact h.subset (by simp)

/-- Of the events of `smtpDATA`, one payload follows the go-ahead. -/
theorem DataLog.writes {tls r : Bool} {d d' : Bytes} {l tail : List Event} (h : DataLog tls d r tail)
    (hl : goAhead ∉ l) (hw : Writes (l ++ tail) d') : ∃ x, d' = SmtpProxy.sent tls d x := by
  obtain ⟨tls', ok, s, t, hst⟩ := hw
  have hcut : s ++ (goAhead :: .wrote tls' d' ok :: t) = l ++ tail := by simpa using hst
  rcases List.append_eq_append_iff.1 hcut with ⟨a, rfl, ha⟩ | ⟨a, rfl, ha⟩
  · cases a with
    | nil => cases h <;> simp [goAhead] at ha
    | cons x a =>
      rw [List.cons_append, List.cons.injEq] at ha
      exact absurd (by simp [ha.1]) hl
  · -- the go-ahead stands behind the command, and the payload behind it
    rcases a with _ | ⟨x, _ | ⟨y, a⟩⟩
    · cases h <;> simp [goAhead] at ha
    · cases h with
      | command => simp at ha
      | refused => simp [goAhead] at ha
      | unsent x => simp at ha; exact ⟨x, ha.2.1.2.1.symm⟩
      | sent x ok => simp at ha; exact ⟨x, ha.2.1.2.1.symm⟩
    · cases h with
      | command => simp at ha
      | refused => simp at ha
      | unsent => rcases a with _ | ⟨z, a⟩ <;> simp [goAhead] at ha
      | sent => rcases a with _ | ⟨z, _ | ⟨u, a⟩⟩ <;> simp [goAhead] at ha

/-! ## A server that accepts -/

/-- The step can be taken with a server that accepts it. -/
def Step.Polite : Step → Prop
  | .write _ => True
  | .expect codes => ∃ c : Code, c.1 ∈ codes
  | _ => False

/-- Steps that a server can accept are accepted by some server, without TLS. -/
theorem exists_walk_ok {ts : List Step} (h : ∀ t ∈ ts, t.Polite) {n : Net} (hssl : n.ssl = false) :
    ∃ n₀, n₀.ssl = false ∧ walk ts n₀ = .ok n := by
  induction ts with
  | nil => exact ⟨n, hssl, rfl⟩
  | cons t ts ih =>
    obtain ⟨n₁, hn₁, hw⟩ := ih fun t ht => h t (List.mem_cons_of_mem _ ht)
    have ht := h t (by simp)
    cases t with
    | write data =>
      refine ⟨{ n₁ with sends := .all :: n₁.sends }, hn₁, ?_⟩
      have hpass : Send.all.passes n₁.ssl (lenOf data) = true := by rw [hn₁]; rfl
      simp only [walk, Step.walk, hpass, if_true]
      exact hw
    | expect codes =>
      obtain ⟨c, hc⟩ := ht
      refine ⟨{ n₁ with recvs := .data ⟨(lineReply c).bytes, (lineReply c).size⟩ :: n₁.recvs }, hn₁, ?_⟩
      have hcode : strncmp c.1 (lineReply c).final 3 = true :=
        (strncmp_replyLine c c (by decide) _).2 rfl
      have hany : (codes.any fun x => strncmp x (lineReply c).final 3) = true :=
        List.any_eq_true.2 ⟨c.1, hc, hcode⟩
      simp only [walk, Step.walk, Net.reply, replyOf_reply, Option.map_some, hany, if_true]
      exact hw
    | connect => exact ht.elim
    | hand => exact ht.elim
    | stop => exact ht.elim

theorem polite_expect {code : Bytes} {codes : List Bytes}
    (h : code.length = 3 ∧ ∀ b ∈ code, 48 ≤ b ∧ b ≤ 57) : (Step.expect (code :: codes)).Polite :=
  ⟨⟨code, h⟩, by simp⟩

theorem polite_250 (codes : List Bytes) : (Step.expect (bytes "250" :: codes)).Polite :=
  polite_expect (isCode ⟨rfl, rfl⟩)

/-- The steps before `DATA`, on an idle connection. -/
def approachSteps (tp : Tp) (toList : List Bytes) : List Step :=
  GetConn.reused.steps tp ++
    ([.write (cstr (line1024 "MAIL FROM:<" tp.name)), .expect [bytes "250"]] ++ rcptSteps toList)

theorem steps_reused (tp : Tp) (toList : List Bytes) (data : Bytes) :
    GetConn.reused.steps tp ++ mailSteps tp toList data = approachSteps tp toList ++
      [.write (bytes "DATA\r\n"), .expect [bytes "354"], .write (cstr data), .expect [bytes "250"]] := by
  simp only [approachSteps, mailSteps, List.append_assoc]

/-- They can be accepted. -/
theorem polite_approach (tp : Tp) (toList : List Bytes) : ∀ t ∈ approachSteps tp toList, t.Polite := by
  have hwrite : ∀ data, (Step.write data).Polite := fun _ => trivial
  have hrcpt : ∀ t ∈ rcptSteps toList, t.Polite := by
    induction toList with
    | nil => intro t ht; cases ht
    | cons to_ toList ih =>
      rw [rcptSteps, List.forall_mem_append]
      exact ⟨by simp only [List.forall_mem_cons]; exact ⟨hwrite _, polite_250 _, by simp⟩, ih⟩
  simp only [approachSteps, GetConn.steps, List.forall_mem_append, List.forall_mem_cons]
  exact ⟨⟨hwrite _, polite_250 _, by simp⟩, ⟨hwrite _, polite_250 _, by simp⟩, hrcpt⟩

theorem polite_reused (tp : Tp) (toList : List Bytes) (data : Bytes) :
    ∀ t ∈ GetConn.reused.steps tp ++ mailSteps tp toList data, t.Polite := by
  have h354 : (Step.expect [bytes "354"]).Polite := polite_expect (isCode ⟨rfl, rfl⟩)
  rw [steps_reused, List.forall_mem_append]
  simp only [List.forall_mem_cons]
  exact ⟨polite_approach tp toList, trivial, h354, trivial, polite_250 _, by simp⟩

/-- On an idle connection `tpSendMail` comes to `smtpDATA` if the steps before it are accepted. -/
theorem tpSendMail_approach {tp : Tp} {toList : List Bytes} (data : Bytes) {w : Session} {n : Net}
    (h : walk (approachSteps tp toList) w.net = .ok n) : ∃ w₁, w₁.net = n ∧
      tpSendMail tp toList data .reused w = smtpDATA data w₁ := by
  set os := rsetOps ++ ([.write (line1024 "MAIL FROM:<" tp.name), .expect (bytes "250")] ++ rcptOps toList)
    with hos
  have hsend : tpSendMail tp toList data .reused = (runOps os).and (smtpDATA data) := by
    rw [hos, runOps_append, runOps_append, ← smtpRSET_eq, ← smtpRCPTTO_eq, Cmd.and_assoc, Cmd.and_assoc]
    simp only [runOps, Cmd.and_ok, Op.cmd]
    rfl
  have hproper : ∀ o ∈ os, o.Proper :=
    List.forall_mem_append.2 ⟨proper_rset,
      List.forall_mem_append.2 ⟨by simp [Op.Proper], proper_rcpt toList⟩⟩
  have hsteps : os.map Op.step = approachSteps tp toList := by
    rw [hos, List.map_append, List.map_append, steps_rcpt]
    rfl
  have himp := implements_runOps hproper w
  rw [hsteps, h] at himp
  refine ⟨(runOps os w).2, himp.2, ?_⟩
  rw [hsend, Cmd.and]
  rcases hrun : runOps os w with ⟨b, w₁⟩
  rw [hrun] at himp
  obtain rfl : b = true := himp.1
  rfl

/-! ## The payload of a message -/

section
variable {transports : List Tp} {M buf : Bytes}

/-- **The payload written** is what stands behind the DATA line, up to a NUL, and
    of that what one call is given for it. -/
theorem writes_payload (hb : Holds M buf) {env : Env} {d' : Bytes}
    (hw : Writes (respond transports buf env).log d') :
    Routed transports M ∧ ∃ h d tls x, IsFirst dataMark (cstr M) h d ∧ d' = sent tls d x := by
  rcases respond_cases hb env with ⟨-, -, hlog, -⟩ | ⟨hr, tp, h, d, data, hf, hd, hresp, -⟩
  · rw [hlog] at hw
    exact absurd hw.mem List.not_mem_nil
  · obtain ⟨l, hl, ⟨-, hlog⟩ | ⟨tls, tail, htail, hlog⟩⟩ :=
      mails_tpSendMail tp (prepareSendMail (M ++ [0]) [] errlen).recipients data env.how env.session
    · rw [hresp, hlog] at hw
      exact absurd hw.mem hl
    · rw [hresp, hlog] at hw
      obtain ⟨x, rfl⟩ := htail.writes hl hw
      exact ⟨hr, h, d, tls, x, hf, by rw [← hd, sent_cstr]⟩

theorem Routed.isFirst (hr : Routed transports M) : ∃ h d, IsFirst dataMark (cstr M) h d := by
  obtain ⟨junk, hM⟩ := (holds_zero M).split
  have hret := hr.1
  rw [hM] at hret
  obtain ⟨h, d, hf, -⟩ := (prepareSendMail_ret junk [] errlen (cstr_nulFree M)).1 hret
  exact ⟨h, d, hf⟩

theorem Routed.dialogue (hr : Routed transports M) : ∃ tp rcpts data, ∀ how,
    SmtpProxy.dialogue transports M how = how.steps tp ++ mailSteps tp rcpts data := by
  obtain ⟨tp, hfind⟩ := Option.isSome_iff_exists.1 hr.2
  refine ⟨tp, (prepareSendMail (M ++ [0]) [] errlen).recipients,
    (prepareSendMail (M ++ [0]) [] errlen).payload, fun how => ?_⟩
  unfold SmtpProxy.dialogue
  simp only [hfind]
  exact if_pos hr.1

/-- The server accepts every step of the message. -/
def Accepting (transports : List Tp) (M : Bytes) (env : Env) : Prop :=
  ∃ n, walk (dialogue transports M env.how) env.net = .ok n

theorem exists_accepting (hr : Routed transports M) : ∃ env, Accepting transports M env := by
  obtain ⟨tp, rcpts, data, hdial⟩ := hr.dialogue
  obtain ⟨n₀, -, hn₀⟩ := exists_walk_ok (polite_reused tp rcpts data)
    (show (⟨false, [], [], []⟩ : Net).ssl = false from rfl)
  exact ⟨⟨.reused, n₀⟩, _, by rw [hdial, hn₀]⟩

/-- If the server accepts, the payload is written after DATA, up to a NUL; the
    whole of it, iff there is no NUL in the message and the payload is short. -/
theorem accepted_of_accepting (hb : Holds M buf) {env : Env} (h : Accepting transports M env) :
    (∃ h d tls x, IsFirst dataMark (cstr M) h d ∧
        Accepted (sent tls d x) (respond transports buf env).log) ∧
      (Delivered M (respond transports buf env).log ↔ NulFree M ∧ ShortPayload M) := by
  obtain ⟨n, hn⟩ := h
  rcases respond_cases hb env with ⟨-, -, -, hdial⟩ | ⟨-, tp, h, d, data, hf, hd, hresp, hdial⟩
  · rw [hdial] at hn
    cases hn
  · have himp := implements_tpSendMail tp (prepareSendMail (M ++ [0]) [] errlen).recipients data
      env.how env.session
    have hmails := mails_tpSendMail tp (prepareSendMail (M ++ [0]) [] errlen).recipients data env.how
    rw [← hdial, show env.session.net = env.net from rfl, hn] at himp
    rw [hresp, delivered_iff hf hd hmails rfl]
    refine ⟨?_, and_iff_right himp.1⟩
    obtain ⟨l, -, ⟨hfalse, -⟩ | ⟨tls, tail, htail, hlog⟩⟩ := hmails env.session
    · rw [himp.1] at hfalse
      cases hfalse
    · obtain ⟨x, hx⟩ := accepted_append_iff htail
      refine ⟨h, d, tls, x, hf, ?_⟩
      rw [hlog, ← List.append_assoc, hx]
      exact ⟨himp.1, by rw [← hd, sent_cstr]⟩

/-- `smtpDATA` gives its payload to the call if the server lets it come. -/
theorem smtpDATA_writes (data : Bytes) {w : Session} {x : Send}
    (hw : w.net = ⟨false, [.all, x], lineReads [code354], []⟩) :
    Writes (smtpDATA data w).2.log (sent false data x) := by
  obtain ⟨ssl, sends, recvs, hands, err, log⟩ := w
  obtain ⟨rfl, rfl, rfl, rfl⟩ := Net.mk.inj hw
  have hcmd := @smtpWrite_passes (bytes "DATA\r\n")
    ⟨false, [.all, x], lineReads [code354], [], err, log⟩ _ _ rfl rfl
  set w₁ := Session.note ⟨false, [x], lineReads [code354], [], err, log⟩
    (.wrote false (sent false (bytes "DATA\r\n") .all) true)
  obtain ⟨b, err', hb, -, hd⟩ := expectData_reply (lineReply code354) code354 { w₁ with recvs := [] }
  have hexpect := @smtpExpect_data (bytes "354") _ _ _ (show w₁.recvs = _ :: [] from rfl)
  rw [show bytes "354" = code354.1 from rfl, hd, hb.2 rfl] at hexpect
  set w₂ := Session.note { { w₁ with recvs := [] } with err := err' } goAhead
  have hpay : (smtpWrite data w₂).2.log =
      w₂.log ++ [.wrote false (sent false data x) (smtpWrite data w₂).1] := (smtpWrite_log data w₂).1
  have hgo : w₂.log = w₁.log ++ [goAhead] := rfl
  unfold smtpDATA Cmd.and
  rw [hcmd]
  dsimp only
  rw [show smtpExpect (bytes "354") w₁ = (true, w₂) from hexpect]
  dsimp only
  rcases hrun : smtpWrite data w₂ with ⟨_ | _, w₃⟩
  · rw [hrun, hgo] at hpay
    refine ⟨false, false, w₁.log, [], ?_⟩
    calc w₁.log ++ [goAhead, .wrote false (sent false data x) false] ++ []
        = w₁.log ++ [goAhead] ++ [.wrote false (sent false data x) false] := by simp
      _ = w₃.log := hpay.symm
  · rw [hrun, hgo] at hpay
    have hlast := (smtpExpect_log (bytes "250") w₃).1
    refine ⟨false, true, w₁.log, [.expected (bytes "250") (smtpExpect (bytes "250") w₃).1], ?_⟩
    dsimp only at hpay ⊢
    rw [hlast, hpay]
    simp

/-- A routed message has its payload written, with any outcome of the call. -/
theorem exists_writes (hb : Holds M buf) (hr : Routed transports M) {h d : Bytes}
    (hf : IsFirst dataMark (cstr M) h d) (x : Send) :
    ∃ env, Writes (respond transports buf env).log (sent false d x) := by
  obtain ⟨tp, rcpts, data, hdial⟩ := hr.dialogue
  obtain ⟨n₀, -, hn₀⟩ := exists_walk_ok (polite_approach tp rcpts)
    (show (⟨false, [.all, x], lineReads [code354], []⟩ : Net).ssl = false from rfl)
  refine ⟨⟨.reused, n₀⟩, ?_⟩
  rcases respond_cases hb ⟨.reused, n₀⟩ with ⟨hnot, -⟩ | ⟨-, tp', h', d', data, hf', hd, hresp, hdial'⟩
  · exact absurd hr hnot
  · obtain ⟨rfl, rfl⟩ := hf'.unique hf
    rw [steps_reused] at hdial'
    have hsame := (hdial .reused).symm.trans hdial'
    rw [steps_reused] at hsame
    rw [(List.append_inj' hsame rfl).1] at hn₀
    obtain ⟨w₁, hw₁, hsend⟩ := tpSendMail_approach data (w := Env.session ⟨.reused, n₀⟩) hn₀
    rw [hresp, hsend, ← hd, sent_cstr]
    exact smtpDATA_writes data hw₁

end

/-! ## The reads of a message -/

/-- One read: `f.1` are the reads of each message so far, `f.2` those of the
    next one. -/
def cut (f : List (List Bytes) × List Bytes) (bs : Bytes) : List (List Bytes) × List Bytes :=
  if Complete (f.2 ++ [bs]).flatten then (f.1 ++ [f.2 ++ [bs]], []) else (f.1, f.2 ++ [bs])

/-- The reads of each message, and the reads after the last of them. -/
def cuts (reads : List Bytes) : List (List Bytes) × List Bytes := reads.foldl cut ([], [])

theorem cuts_snoc (reads : List Bytes) (bs : Bytes) :
    cuts (reads ++ [bs]) = cut (cuts reads) bs := by simp [cuts]

/-- The messages are made of their reads. -/
theorem frames_eq_cuts (reads : List Bytes) :
    frames reads = ((cuts reads).1.map List.flatten, (cuts reads).2.flatten) := by
  induction reads using List.reverseRecOn with
  | nil => rfl
  | append_singleton reads bs ih =>
    rw [frames_snoc, cuts_snoc, ih, frame, cut, List.flatten_append, List.flatten_singleton]
    split_ifs
    · simp
    · simp

/-- A message ends with the first read after which it is complete. -/
theorem cuts_complete (reads : List Bytes) :
    (∀ cs ∈ (cuts reads).1, ∀ pre post, cs = pre ++ post → Complete pre.flatten → post = []) ∧
    ∀ pre post, (cuts reads).2 = pre ++ post → ¬ Complete pre.flatten := by
  induction reads using List.reverseRecOn with
  | nil =>
    refine ⟨fun cs hcs => (List.not_mem_nil hcs).elim, fun pre post h hc => ?_⟩
    obtain ⟨rfl, -⟩ := List.append_eq_nil_iff.1 h.symm
    exact absurd hc.1 (by simp)
  | append_singleton reads bs ih =>
    obtain ⟨hdone, hopen⟩ := ih
    -- a beginning of the reads so far, or all of them
    have hpre : ∀ pre post, (cuts reads).2 ++ [bs] = pre ++ post → Complete pre.flatten →
        post = [] := by
      intro pre post h hc
      rcases List.eq_nil_or_concat post with rfl | ⟨post, b, rfl⟩
      · rfl
      · have h' : (cuts reads).2 ++ [bs] = (pre ++ post) ++ [b] := by simpa using h
        exact absurd hc (hopen pre post (List.append_inj' h' rfl).1)
    rw [cuts_snoc, cut]
    split_ifs with hc
    · refine ⟨fun cs hcs => ?_, fun pre post h hp => ?_⟩
      · rcases List.mem_append.1 hcs with hcs | hcs
        · exact hdone cs hcs
        · rw [List.mem_singleton.1 hcs]
          exact hpre
      · obtain ⟨rfl, -⟩ := List.append_eq_nil_iff.1 h.symm
        exact absurd hp.1 (by simp)
    · refine ⟨hdone, fun pre post h hp => ?_⟩
      obtain rfl := hpre pre post h hp
      rw [List.append_nil] at h
      dsimp only at h
      rw [h] at hc
      exact hc hp

/-- From the DATA line of the message on, the first CRLF.CRLF has no NUL before
    it, and no more of the same read behind it.  Or there is a NUL behind it, after
    as many bytes as an `int` does not show. -/
def Stops (cs : List Bytes) : Prop :=
  ∃ h d a b, IsFirst dataMark cs.flatten h d ∧ IsFirst endMark (crlf ++ d) a b ∧ NulFree a ∧
    a.length + 3 < 2 ^ 31 ∧
    ((∃ pre post, cs = pre ++ post ∧ post.flatten = b) ∨ 2 ^ 32 ∣ (cstr b).length)

/-! ## The payloads end where the server ends them -/

theorem endMark_nulFree : NulFree endMark := by decide

/-- The length that an `int` shows is the one up to the first mark iff that is short and
    the rest is lost in the `int`. -/
theorem lenOf_first_iff {d a b : Bytes} (hd : NulFree d) (he : IsFirst endMark (crlf ++ d) a b) :
    lenOf d = (a.length + 3 : ℕ) ↔ a.length + 3 < 2 ^ 31 ∧ 2 ^ 32 ∣ b.length := by
  have hlen := congrArg List.length he.eq
  simp only [List.length_append, show crlf.length = 2 from rfl, show endMark.length = 5 from rfl] at hlen
  rw [lenOf, cstr_of_nulFree hd, show d.length = a.length + 3 + b.length by omega, intOf_add_eq_iff]

/-- The first mark of a block, with no NUL before it, is that of its string. -/
theorem first_of_block {s u a b : Bytes} (hs : NulFree s) (hu : cstr u = []) (ha : NulFree a)
    (he : IsFirst endMark (s ++ u) a b) : IsFirst endMark s a (cstr b) := by
  have hcut : s = a ++ endMark ++ cstr b := by
    calc s = cstr (s ++ u) := by rw [hs.cstr_append, hu, List.append_nil]
      _ = a ++ endMark ++ cstr b := by rw [he.eq, (ha.append endMark_nulFree).cstr_append]
  refine ⟨hcut, fun a' b' h => he.2 a' (b' ++ u) ?_⟩
  rw [h, List.append_assoc, List.append_assoc]

/-- **What a call is given ends with the mark** iff it is given what the first mark
    ends. -/
theorem endsOnce_sent_iff {d a b : Bytes} (hd : NulFree d) (he : IsFirst endMark (crlf ++ d) a b)
    (h0 : 0 ≤ lenOf d) (tls : Bool) (x : Send) :
    EndsOnce endMark (crlf ++ sent tls d x) ↔ lenOf d = (a.length + 3 : ℕ) := by
  obtain ⟨n, hn⟩ := Int.eq_ofNat_of_zero_le h0
  have hsent : sent tls d x = d.take n := by
    rw [sent_of_nonneg h0, hn, Int.toNat_natCast, cstr_of_nulFree hd]
  have hlen : (d.take n).length = n := by
    have := length_given h0 tls
    rw [given, if_pos h0, hn, Int.toNat_natCast, cstr_of_nulFree hd] at this
    omega
  rw [hsent, hn, Int.ofNat_inj]
  constructor
  · rintro ⟨a', ha'⟩
    have hwhole := ha'.append (d.drop n)
    rw [List.append_assoc, List.take_append_drop] at hwhole
    obtain ⟨rfl, -⟩ := hwhole.unique he
    have := congrArg List.length ha'.eq
    simp only [List.length_append, hlen, show crlf.length = 2 from rfl, show endMark.length = 5 from rfl,
      List.length_nil] at this
    omega
  · rintro rfl
    have hcut : (crlf ++ d.take (a.length + 3)) ++ d.drop (a.length + 3) = (a ++ endMark) ++ b := by
      rw [List.append_assoc, List.take_append_drop, he.eq]
    have hrest := (List.append_inj hcut (by
      simp only [List.length_append, hlen, show crlf.length = 2 from rfl, show endMark.length = 5 from rfl]
      omega)).2
    refine ⟨a, IsFirst.of_append (t := b) ?_⟩
    rw [← hrest, List.append_assoc, List.take_append_drop, hrest, List.nil_append]
    exact he

/-- Between the DATA line and the first CRLF.CRLF there is more than a CRLF. -/
theorem stops_end {cs : List Bytes} {h d a b : Bytes}
    (hcs : ∀ pre post, cs = pre ++ post → Complete pre.flatten → post = [])
    (hf : IsFirst dataMark cs.flatten h d) (he : IsFirst endMark (crlf ++ d) a b)
    (hb : ∃ pre post, cs = pre ++ post ∧ post.flatten = b) : b = [] := by
  obtain ⟨pre, post, rfl, rfl⟩ := hb
  have hflat : pre.flatten ++ post.flatten = h ++ crlf ++ dataWord ++ a ++ endMark ++ post.flatten := by
    have h1 := hf.eq
    have h2 := he.eq
    rw [List.flatten_append] at h1
    calc pre.flatten ++ post.flatten = h ++ crlf ++ dataWord ++ (crlf ++ d) := by
          rw [h1]; simp [dataMark]
      _ = h ++ crlf ++ dataWord ++ a ++ endMark ++ post.flatten := by rw [h2]; simp
  have hpre := List.append_cancel_right hflat
  have hc : Complete pre.flatten := by
    rw [hpre]
    refine ⟨?_, List.suffix_append _ _⟩
    simp only [List.length_append, show crlf.length = 2 from rfl, show dataWord.length = 4 from rfl,
      show endMark.length = 5 from rfl]
    omega
  rw [hcs pre post rfl hc, List.flatten_nil]

section
variable {transports : List Tp} {buf : Bytes}

/-- **One message**: whatever is written for it ends with its only CRLF.CRLF,
    iff its reads stop at the first one. -/
theorem message_end_iff {cs : List Bytes} (hb : Holds cs.flatten buf)
    (hcs : ∀ pre post, cs = pre ++ post → Complete pre.flatten → post = []) :
    (∀ env d, Writes (respond transports buf env).log d → EndsOnce endMark (crlf ++ d)) ↔
      (Routed transports cs.flatten → Stops cs) := by
  obtain ⟨u, hM, hu⟩ := cstr_append_rest cs.flatten
  have hlift : ∀ {h d}, IsFirst dataMark (cstr cs.flatten) h d →
      IsFirst dataMark cs.flatten h (d ++ u) ∧ NulFree d := by
    intro h d hf
    have h1 := hf.append u
    have h2 := cstr_nulFree cs.flatten
    rw [hf.eq] at h2
    rw [← hM] at h1
    exact ⟨h1, (nulFree_append.1 h2).2⟩
  have hu0 : cstr u = [] := by
    rcases hu with rfl | ⟨v, rfl⟩
    · rfl
    · simp [cstr]
  constructor
  · intro hall hr
    obtain ⟨h, d, hf⟩ := hr.isFirst
    obtain ⟨hfM, hd⟩ := hlift hf
    rcases Int.lt_or_le (lenOf d) 0 with hneg | h0
    · -- a negative `len` lets the first byte be the only one
      obtain ⟨env, hw⟩ := exists_writes hb hr hf (.part 1)
      have hone : (sent false d (.part 1)).length ≤ 1 := by
        rw [sent, if_neg (by simp [Int.not_le.2 hneg]), List.length_take]
        omega
      obtain ⟨a, ha⟩ := hall env _ hw
      have hlen := congrArg List.length ha.eq
      simp only [List.length_append, show crlf.length = 2 from rfl, show endMark.length = 5 from rfl] at hlen
      omega
    · obtain ⟨env, hw⟩ := exists_writes hb hr hf .all
      have hend := hall env _ hw
      obtain ⟨t, ht⟩ := sent_isPrefix false d .all
      rw [cstr_of_nulFree hd] at ht
      obtain ⟨a, ha⟩ := hend
      have he := ha.append t
      rw [List.append_assoc, ht, List.nil_append] at he
      obtain ⟨hshort, hdvd⟩ := (lenOf_first_iff hd he).1 ((endsOnce_sent_iff hd he h0 false .all).1 ⟨a, ha⟩)
      have hfree := crlf_nulFree.append hd
      rw [he.eq] at hfree
      obtain ⟨hfree, ht0⟩ := nulFree_append.1 hfree
      have hau := he.append u
      rw [List.append_assoc] at hau
      refine ⟨h, d ++ u, a, t ++ u, hfM, hau, (nulFree_append.1 hfree).1, hshort, Or.inr ?_⟩
      rw [ht0.cstr_append, hu0, List.append_nil]
      exact hdvd
  · intro hstop env d' hw
    obtain ⟨hr, h, d, tls, x, hf, rfl⟩ := writes_payload hb hw
    obtain ⟨hfM, hd⟩ := hlift hf
    obtain ⟨h', d', a, b, hf', he, ha0, hshort, hb'⟩ := hstop hr
    obtain ⟨rfl, rfl⟩ := hf'.unique hfM
    have hdvd : 2 ^ 32 ∣ (cstr b).length := by
      rcases hb' with hpost | hdvd
      · rw [stops_end hcs hf' he hpost]
        exact Nat.dvd_zero _
      · exact hdvd
    -- the payload is the string at its place in the message
    rw [← List.append_assoc] at he
    have he' := first_of_block (crlf_nulFree.append hd) hu0 ha0 he
    have hlenOf := (lenOf_first_iff hd he').2 ⟨hshort, hdvd⟩
    exact (endsOnce_sent_iff hd he' (by omega) tls x).2 hlenOf

end

/-- Related lists have related properties. -/
theorem forall_congr_of_forall₂ {α β : Type*} {R : α → β → Prop} {P : α → Prop} {Q : β → Prop}
    {as : List α} {bs : List β} (h : List.Forall₂ R as bs) (hPQ : ∀ a b, a ∈ as → R a b → (P a ↔ Q b)) :
    (∀ b ∈ bs, Q b) ↔ ∀ a ∈ as, P a := by
  induction h with
  | nil => simp
  | @cons a b as bs hab _ ih =>
    rw [List.forall_mem_cons, List.forall_mem_cons, ← hPQ a b (by simp) hab,
      ih fun a' b' ha' => hPQ a' b' (List.mem_cons_of_mem _ ha')]

/-- **No smuggling, where reads stop.**  For every client and every way its bytes
    are read: whatever the servers do, each payload written after `DATA` ends
    with its only CRLF.CRLF, iff each of its messages stops at the first CRLF.CRLF
    from the DATA line on (`Stops`), within what an `int` counts. -/
theorem payloads_end_iff (transports : List Tp) {E : Type*}
    {p : List (ClientThread E × ClientEvent E)} {c : ClientThread E}
    (hp : Runs.Path ClientThread.step .init p c) :
    (∀ x ∈ c.sent, ∀ env d, Writes (respond transports x.1 env).log d →
      EndsOnce endMark (crlf ++ d)) ↔
    ∀ cs ∈ (cuts (readsOf p)).1, Routed transports cs.flatten → Stops cs := by
  have hsent := (framed_of_path hp).sent
  rw [frames_eq_cuts] at hsent
  have hsent' := List.forall₂_map_left_iff.1 hsent
  refine forall_congr_of_forall₂ hsent' fun cs x hcs hx => ?_
  exact (message_end_iff hx ((cuts_complete _).1 cs hcs)).symm

/-- Messages for the transport `t`. -/
theorem plain_request {data : Bytes} (hd : NulFree data) :
    Routed [tpPlain] (request (bytes "t") [bytes "b"] data) ∧
      IsFirst dataMark (request (bytes "t") [bytes "b"] data)
        (crlf.intercalate [bytes "t", bytes "b"]) data := by
  obtain ⟨hret, hsender, -⟩ := prepare_plain hd
  refine ⟨⟨hret, ?_⟩, isFirst_request data (by decide) (by decide) (by decide)⟩
  rw [hsender]
  decide

/-- The message of `msgPlain` in two reads, cut inside its mark, and once more in one:
    its payloads end where the server ends them. -/
theorem payloads_end_iff_plain : ∃ (p : List (ClientThread Unit × ClientEvent Unit)) (c : ClientThread Unit),
    Runs.Path ClientThread.step .init p c ∧
      readsOf p = [msgPlain.take 16, msgPlain.drop 16, msgPlain] ∧ c.sent.length = 2 ∧
      ∀ x ∈ c.sent, ∀ env d, Writes (respond [tpPlain] x.1 env).log d → EndsOnce endMark (crlf ++ d) := by
  obtain ⟨p, c, hp, -, hr, -⟩ := path_of_reads ()
    [msgPlain.take 16, msgPlain.drop 16, msgPlain] (by decide) (by decide)
  have hcuts : (cuts (readsOf p)).1 = [[msgPlain.take 16, msgPlain.drop 16], [msgPlain]] := by
    rw [hr]; decide
  have hlen := (framed_of_path hp).sent.length_eq
  rw [frames_eq_cuts, hcuts] at hlen
  refine ⟨p, c, hp, hr, hlen.symm, (payloads_end_iff [tpPlain] hp).2 fun cs hcs _ => ?_⟩
  have hflat : cs.flatten = msgPlain := by
    rw [hcuts] at hcs
    rcases List.mem_cons.1 hcs with rfl | hcs
    · rfl
    · rw [List.mem_singleton.1 hcs]; rfl
  have hend : IsFirst endMark (crlf ++ bytes "x\r\n.\r\n") (bytes "\r\nx") [] := by
    have h : EndsOnce endMark (crlf ++ bytes "x\r\n.\r\n") := by decide
    obtain ⟨a, ha⟩ := h
    obtain rfl : a = bytes "\r\nx" := by
      have heq : bytes "\r\nx" ++ (endMark ++ []) = a ++ (endMark ++ []) := by
        rw [← List.append_assoc, ← List.append_assoc, ← ha.eq]
        decide
      exact (List.append_cancel_right heq).symm
    exact ha
  have hf := (plain_request (show NulFree (bytes "x\r\n.\r\n") by decide)).2
  refine ⟨_, _, _, [], by rw [hflat]; exact hf, hend, by decide, by decide, Or.inl ⟨cs, [], by simp, rfl⟩⟩

/-! ## Two messages in one read -/

/-- **Pipelining.**  Two messages in one read are sent as one payload; the
    second is read as commands. -/
theorem pipelined : ∃ c, Runs.Path ClientThread.step .init
      [(.init, .read (msgPlain ++ msgPlain) () true)] c ∧
    ¬ ∀ x ∈ c.sent, ∀ env d, Writes (respond [tpPlain] x.1 env).log d →
      EndsOnce endMark (crlf ++ d) := by
  have hcomp : Complete (msgPlain ++ msgPlain) := by decide
  obtain ⟨j, c, hc, hp⟩ := path_of_complete hcomp (by decide) ()
  refine ⟨c, hp, fun h => ?_⟩
  have hM : msgPlain ++ msgPlain =
      request (bytes "t") [bytes "b"] (bytes "x\r\n.\r\n" ++ msgPlain) := by decide
  obtain ⟨hr, hf⟩ := plain_request (show NulFree (bytes "x\r\n.\r\n" ++ msgPlain) by decide)
  rw [← hM] at hr hf
  rw [← cstr_of_nulFree (show NulFree (msgPlain ++ msgPlain) by decide)] at hf
  obtain ⟨env, hw⟩ := exists_writes ⟨j, rfl⟩ hr hf .all
  rw [(sent_eq_iff _ _ _).2 (by decide)] at hw
  have hend := h (_, ()) (by rw [hc]; simp) env _ hw
  revert hend
  decide

end SmtpProxy
