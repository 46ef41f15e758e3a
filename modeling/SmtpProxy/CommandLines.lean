/-
  The bytes of the commands of a message.

  `smtpMAILFROM` and `smtpRCPTTO` format each line into 1024 bytes, and what does
  not fit is cut off, its CRLF first.

  * `written_ok`: a command that returns 1 has written all its texts, each as far as one
    call is given it;
  * `command_lines_iff`: the commands before the payload are the lines they
    should be iff the name of the transport and the recipients are short enough.
-/
import SmtpProxy.Recipients

namespace SmtpProxy

open CString

/-! ## Everything that is written -/

/-- The text of a call. -/
def Op.text? : Op → Option Bytes
  | .write data => some data
  | _ => none

theorem op_written {o : Op} {w : Session} (h : (o.cmd w).1 = true) : ∃ ts,
    SentFor o.text?.toList ts ∧ written (o.cmd w).2.log = written w.log ++ ts := by
  cases o with
  | hand =>
    refine ⟨[], .nil, ?_⟩
    obtain ⟨ssl, sends, recvs, hands, err, log⟩ := w
    rcases hands with _ | ⟨_ | _, hs⟩
    · exact (List.append_nil _).symm
    · exact (List.append_nil _).symm
    · exact (List.append_nil _).symm
  | write data =>
    refine ⟨[sent w.ssl data w.nextSend.1], .cons ⟨w.ssl, _, rfl⟩ .nil, ?_⟩
    rw [Op.cmd, (smtpWrite_log data w).1, written_append]
    rfl
  | expect code =>
    refine ⟨[], .nil, ?_⟩
    rw [Op.cmd, (smtpExpect_log code w).1, written_append]
    rfl
  | either code code' =>
    refine ⟨[], .nil, ?_⟩
    rw [Op.cmd, Cmd.orCode_snd, (smtpExpect_log code w).1, written_append]
    rfl
  | fail text => cases h

/-- **All texts are written**, in order, by a command that returns 1. -/
theorem written_ok {os : List Op} {w : Session} (h : (runOps os w).1 = true) : ∃ ts,
    SentFor (os.filterMap Op.text?) ts ∧ written (runOps os w).2.log = written w.log ++ ts := by
  induction os generalizing w with
  | nil => exact ⟨[], .nil, (List.append_nil _).symm⟩
  | cons o os ih =>
    unfold runOps Cmd.and at h ⊢
    rcases ho : o.cmd w with ⟨_ | _, w'⟩
    · rw [ho] at h
      cases h
    · rw [ho] at h
      obtain ⟨t, ht, hw⟩ := op_written (o := o) (w := w) (by rw [ho])
      obtain ⟨ts, hts, hws⟩ := ih h
      rw [ho] at hw
      refine ⟨t ++ ts, ?_, ?_⟩
      · have hcut : (o :: os).filterMap Op.text? = o.text?.toList ++ os.filterMap Op.text? := by
          cases hd : o.text? <;> simp [hd]
        rw [hcut]
        exact List.rel_append ht hts
      · show written (runOps os w').2.log = _
        rw [hws, hw, List.append_assoc]

theorem texts_mail (tp : Tp) (toList : List Bytes) (data : Bytes) :
    (mailOps tp toList data).filterMap Op.text? = (requests tp toList data).map Request.text := by
  have hop : ∀ r : Request, r.ops.filterMap Op.text? = [r.text] := by
    rintro ⟨text, code, _ | c, hf⟩
    · rfl
    · rfl
  rw [mailOps_eq]
  induction requests tp toList data with
  | nil => rfl
  | cons r rs ih => rw [List.flatMap_cons, List.filterMap_append, hop, ih, List.map_cons, List.singleton_append]

/-- What `tpSendMail` writes when it returns 1. -/
theorem written_tpSendMail {tp : Tp} {toList : List Bytes} {data : Bytes} {how : GetConn} {w : Session}
    (h : (tpSendMail tp toList data how w).1 = true) : ∃ tls x,
    written (tpSendMail tp toList data how w).2.log =
      written (how.ready tp w).2.log ++ sentLines tp toList ++ [sent tls data x] := by
  rw [tpSendMail_eq] at h ⊢
  unfold Cmd.and at h ⊢
  rcases hr : how.ready tp w with ⟨_ | _, w₁⟩
  · rw [hr] at h
    cases h
  · rw [hr] at h
    dsimp only at h ⊢
    rw [transaction_eq] at h ⊢
    obtain ⟨ts, hts, hwritten⟩ := written_ok h
    rw [texts_mail] at hts
    obtain ⟨tls, x, rfl⟩ := hts.message
    exact ⟨tls, x, by rw [hwritten, List.append_assoc]⟩

/-! ## Lines that fit -/

theorem length_flatten_take {α : Type*} (n : ℕ) (ls : List (List α)) :
    (ls.map (List.take n)).flatten.length ≤ ls.flatten.length := by
  induction ls with
  | nil => exact Nat.le_refl _
  | cons l ls ih =>
    simp only [List.map_cons, List.flatten_cons, List.length_append, List.length_take]
    omega

/-- Lists that are cut to `n` elements give the same whole iff none is longer. -/
theorem flatten_take_iff {α : Type*} {n : ℕ} {ls : List (List α)} :
    (ls.map (List.take n)).flatten = ls.flatten ↔ ∀ l ∈ ls, l.length ≤ n := by
  constructor
  · intro h
    replace h := congrArg List.length h
    induction ls with
    | nil => simp
    | cons l ls ih =>
      have hle := length_flatten_take n ls
      simp only [List.map_cons, List.flatten_cons, List.length_append, List.length_take] at h
      exact List.forall_mem_cons.2 ⟨by omega, ih (by omega)⟩
  · intro h
    have hmap : ls.map (List.take n) = ls.map id :=
      List.map_congr_left fun l hl => List.take_of_length_le (h l hl)
    rw [hmap, List.map_id]

/-- The lines that should be sent. -/
def commandLines (name : Bytes) (toList : List Bytes) : List Bytes :=
  argLine "MAIL FROM:<" name :: (toList.map (argLine "RCPT TO:<") ++ [bytes "DATA\r\n"])

theorem sentLines_eq (tp : Tp) (toList : List Bytes) :
    sentLines tp toList = (commandLines (cstr tp.name) (toList.map cstr)).map (List.take 1023) := by
  rw [sentLines, commandLines, List.map_cons, List.map_append, List.map_map, List.map_map,
    cstr_line1024 (by decide)]
  congr 2
  exact List.map_congr_left fun to_ _ => cstr_line1024 (by decide) to_

theorem fits_iff (name : Bytes) (toList : List Bytes) :
    (∀ l ∈ commandLines name toList, l.length ≤ 1023) ↔
      name.length ≤ 1009 ∧ ∀ r ∈ toList, r.length ≤ 1011 := by
  have hmail : (bytes "MAIL FROM:<").length = 11 := rfl
  have hrcpt : (bytes "RCPT TO:<").length = 9 := rfl
  have hend : (bytes ">\r\n").length = 3 := rfl
  simp only [commandLines, List.forall_mem_cons, List.forall_mem_append, List.forall_mem_map, argLine,
    List.length_append, hmail, hrcpt, hend]
  constructor
  · rintro ⟨h, hto, -⟩
    exact ⟨by omega, fun r hr => by have := hto r hr; omega⟩
  · rintro ⟨h, hto⟩
    exact ⟨by omega, fun r hr => by have := hto r hr; omega, by decide, List.forall_mem_nil _⟩

theorem crlf_commandLines {name : Bytes} {toList : List Bytes} {l : Bytes} (hl : l ∈ commandLines name toList) :
    crlf <:+ l := by
  have harg : ∀ (head : String) (arg : Bytes), crlf <:+ argLine head arg := by
    intro head arg
    exact ⟨bytes head ++ arg ++ bytes ">", by rw [argLine, List.append_assoc]; rfl⟩
  rcases List.mem_cons.1 hl with rfl | hl
  · exact harg _ _
  · rcases List.mem_append.1 hl with hl | hl
    · obtain ⟨r, -, rfl⟩ := List.mem_map.1 hl
      exact harg _ _
    · rw [List.mem_singleton.1 hl]
      decide

/-- **The commands of a message.**  When the server accepts every step, what is
    written before the payload are the lines of MAIL, RCPT for each recipient
    and DATA, each with its CRLF, iff the name of the transport has at most 1009
    bytes and each recipient at most 1011. -/
theorem command_lines_iff {tp : Tp} {msg res : Bytes} {how : GetConn} {w : Session}
    (h : (tpSendMail tp (prepareSendMail msg res errlen).recipients
      ((prepareSendMail msg res errlen).msg.drop (prepareSendMail msg res errlen).data) how w).1 = true) :
    ∃ lines last, written (tpSendMail tp (prepareSendMail msg res errlen).recipients
        ((prepareSendMail msg res errlen).msg.drop (prepareSendMail msg res errlen).data) how w).2.log =
      written (how.ready tp w).2.log ++ lines ++ [last] ∧
    (last <+: (prepareSendMail msg res errlen).payload ∧
      (last = (prepareSendMail msg res errlen).payload ↔
        (prepareSendMail msg res errlen).payload.length < 2 ^ 31)) ∧
    (lines.flatten = (commandLines (cstr tp.name) (prepareSendMail msg res errlen).recipients).flatten ∧
        (∀ l ∈ lines, crlf <:+ l) ↔
      (cstr tp.name).length ≤ 1009 ∧ ∀ r ∈ (prepareSendMail msg res errlen).recipients, r.length ≤ 1011) := by
  set e := prepareSendMail msg res errlen
  have hcstr : e.recipients.map cstr = e.recipients := by
    rw [Envelope.recipients, List.map_map]
    exact List.map_congr_left fun to_ _ => cstr_of_nulFree (cstr_nulFree _)
  obtain ⟨tls, x, hwritten⟩ := written_tpSendMail h
  refine ⟨_, _, hwritten, ⟨sent_isPrefix tls _ x, sent_eq_iff tls _ x⟩, ?_⟩
  rw [sentLines_eq, hcstr, flatten_take_iff, ← fits_iff]
  refine and_iff_left_of_imp fun hfits l hl => ?_
  obtain ⟨l, hl', rfl⟩ := List.mem_map.1 hl
  rw [List.take_of_length_le (hfits l hl')]
  exact crlf_commandLines hl'

/-- A message from `a` that is read from a buffer. -/
def bufferOf (toList : List Bytes) : Bytes := request [97] toList [120] ++ 0 :: []

theorem bufferOf_parsed (toList : List Bytes) (hne : toList ≠ [])
    (h : ∀ r ∈ toList, NulFree r ∧ ¬ crlf <:+: r ∧ r ≠ dataWord) :
    (prepareSendMail (bufferOf toList) [] errlen).ret = true ∧
      (prepareSendMail (bufferOf toList) [] errlen).recipients = toList ∧
      (prepareSendMail (bufferOf toList) [] errlen).payload = [120] := by
  have hfrom : NulFree [97] ∧ ¬ crlf <:+: [97] := by decide
  have hdata : NulFree [120] := by decide
  obtain ⟨hret, -, hto, hpay⟩ := prepareSendMail_request [] [] errlen hfrom hne h hdata
  exact ⟨hret, hto, hpay⟩

/-- The line of a recipient of 1012 bytes has no LF. -/
theorem rcpt_cut : ∃ (msg : Bytes) (e : Envelope), e = prepareSendMail msg [] errlen ∧ e.ret = true ∧
    (tpSendMail tpPlain e.recipients (e.msg.drop e.data) .reused (acceptingSession 1)).1 = true ∧
    ∀ lines last, written (tpSendMail tpPlain e.recipients (e.msg.drop e.data) .reused (acceptingSession 1)).2.log =
        written (GetConn.ready tpPlain .reused (acceptingSession 1)).2.log ++ lines ++ [last] →
      lines.flatten ≠ (commandLines (cstr tpPlain.name) e.recipients).flatten := by
  have hb : ∀ x ∈ List.replicate 1012 (98 : UInt8), x = 98 := fun x hx => List.eq_of_mem_replicate hx
  have hto : NulFree (List.replicate 1012 (98 : UInt8)) ∧ ¬ crlf <:+: List.replicate 1012 (98 : UInt8) ∧
      List.replicate 1012 (98 : UInt8) ≠ dataWord := by
    refine ⟨fun h => ?_, fun h => ?_, fun h => ?_⟩
    · exact absurd (hb 0 h) (by decide)
    · exact absurd (hb 13 (h.subset (by decide))) (by decide)
    · exact absurd (hb 68 (h ▸ by decide)) (by decide)
  obtain ⟨hret, hrcpt, -⟩ := bufferOf_parsed _ (List.cons_ne_nil (List.replicate 1012 98) [])
    (List.forall_mem_singleton.2 hto)
  refine ⟨bufferOf [List.replicate 1012 98], _, rfl, hret, ?_⟩
  rw [hrcpt]
  obtain ⟨-, -, -, -, -, hok, -⟩ := run_accepting tpPlain [List.replicate 1012 98]
    ((prepareSendMail (bufferOf [List.replicate 1012 98]) [] errlen).msg.drop
      (prepareSendMail (bufferOf [List.replicate 1012 98]) [] errlen).data)
  refine ⟨hok, fun lines last hlines => ?_⟩
  obtain ⟨tls, x, hwritten⟩ := written_tpSendMail hok
  have hsame : sentLines tpPlain [List.replicate 1012 98] = lines := by
    have := hwritten.symm.trans hlines
    rw [List.append_assoc, List.append_assoc] at this
    exact (List.append_inj' (List.append_cancel_left this) rfl).1
  rw [← hsame, sentLines_eq, List.map_singleton, cstr_of_nulFree hto.1, Ne, flatten_take_iff, fits_iff]
  rintro ⟨-, h⟩
  have := h _ (List.mem_singleton_self _)
  rw [List.length_replicate] at this
  omega

/-- The lines of a message to two recipients. -/
theorem command_lines_iff_two : ∃ (e : Envelope) (lines : List Bytes),
    e = prepareSendMail (bufferOf [bytes "b", bytes "c"]) [] errlen ∧
    written (tpSendMail tpPlain e.recipients (e.msg.drop e.data) .reused (acceptingSession 2)).2.log =
      written (GetConn.ready tpPlain .reused (acceptingSession 2)).2.log ++ lines ++ [e.payload] ∧
    lines.flatten = bytes "MAIL FROM:<t>\r\nRCPT TO:<b>\r\nRCPT TO:<c>\r\nDATA\r\n" ∧
    ∀ l ∈ lines, crlf <:+ l := by
  obtain ⟨-, hto, hpay⟩ := bufferOf_parsed [bytes "b", bytes "c"] (by decide) (by decide)
  have h : (tpSendMail tpPlain (prepareSendMail (bufferOf [bytes "b", bytes "c"]) [] errlen).recipients
      ((prepareSendMail (bufferOf [bytes "b", bytes "c"]) [] errlen).msg.drop
        (prepareSendMail (bufferOf [bytes "b", bytes "c"]) [] errlen).data) .reused (acceptingSession 2)).1 = true := by
    rw [hto]
    obtain ⟨-, -, -, -, -, hok, -⟩ := run_accepting tpPlain [bytes "b", bytes "c"]
      ((prepareSendMail (bufferOf [bytes "b", bytes "c"]) [] errlen).msg.drop
        (prepareSendMail (bufferOf [bytes "b", bytes "c"]) [] errlen).data)
    exact hok
  obtain ⟨lines, last, hwritten, ⟨-, hlast⟩, hiff⟩ := command_lines_iff h
  rw [hlast.2 (by rw [hpay]; decide)] at hwritten
  refine ⟨_, lines, rfl, hwritten, ?_⟩
  rw [hto] at hiff
  obtain ⟨hlines, hcrlf⟩ := hiff.2 (by decide)
  exact ⟨hlines.trans (by decide), hcrlf⟩

end SmtpProxy
