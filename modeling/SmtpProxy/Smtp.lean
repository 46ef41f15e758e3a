/-
  The SMTP commands of smtp.c.

  A `Session` is a connection as these functions see it, with what the network
  will do: the results of `send`/`SSL_write`, of `poll` and `recv`/`SSL_read`,
  and of `SSL_connect`, in the order of the calls.  A command is a function of
  the session (`Cmd`); `log` records what it wrote and which code it expected.

  `smtpWrite`, `smtpExpect`: one write, one reply; the commands follow, with
  their texts as in the source.
-/
import SmtpProxy.Transport

namespace SmtpProxy

open CString

/-- What `send` or `SSL_write` does with the bytes it is given.  A part is less
    than all of them; `SSL_write` takes all or fails. -/
inductive Send where
  | error
  | part (n : ℕ)
  | all
  deriving DecidableEq

/-- What `recv(…, 1023)` or `SSL_read(…, 1023)` returns. -/
abbrev Chunk := { bs : Bytes // bs.length ≤ 1023 }

/-- What one `smtpExpect` gets from `poll` and the read after it. -/
inductive Recv where
  | pollError
  | noInput
  | error
  | data (c : Chunk)
  deriving DecidableEq

/-- `wrote`: the bytes that were taken, or those that a call which failed was
    given. -/
inductive Event where
  | wrote (tls : Bool) (data : Bytes) (ok : Bool)
  | expected (code : Bytes) (ok : Bool)
  deriving DecidableEq

structure Session where
  ssl : Bool
  sends : List Send
  recvs : List Recv
  hands : List Bool
  err : Bytes
  log : List Event
  deriving DecidableEq

/-- The size of the error buffers. -/
def errlen : ℕ := 1024

abbrev Cmd := Session → Bool × Session

namespace Cmd

/-- `f && g` -/
def and (f g : Cmd) : Cmd := fun w =>
  match f w with
  | (true, w) => g w
  | (false, w) => (false, w)

/-- `f || strncmp(code, err, 3) == 0` -/
def orCode (f : Cmd) (code : Bytes) : Cmd := fun w =>
  match f w with
  | (true, w) => (true, w)
  | (false, w) => (strncmp code w.err 3, w)

/-- `return 1` -/
def ok : Cmd := fun w => (true, w)

/-- `snprintf(err, errlen, …); return 0` -/
def fail (text : Bytes) : Cmd := fun w => (false, { w with err := snprintf w.err errlen text })

theorem orCode_snd (f : Cmd) (code : Bytes) (w : Session) : (f.orCode code w).2 = (f w).2 := by
  unfold orCode
  rcases f w with ⟨_ | _, w'⟩ <;> rfl

/-- A failure leaves its text, cut to the size of the buffer. -/
theorem fail_err {text : Bytes} (h0 : NulFree text) (w : Session) :
    cstr (fail text w).2.err = text.take (errlen - 1) := cstr_snprintf h0 _ _

end Cmd

/-! ## One write and one reply -/

/-- The outcome of the next `send` or `SSL_write`. -/
def Session.nextSend (w : Session) : Send × Session :=
  match w.sends with
  | [] => (.error, w)
  | x :: xs => (x, { w with sends := xs })

def Session.nextRecv (w : Session) : Recv × Session :=
  match w.recvs with
  | [] => (.pollError, w)
  | x :: xs => (x, { w with recvs := xs })

def Session.nextHand (w : Session) : Bool × Session :=
  match w.hands with
  | [] => (false, w)
  | x :: xs => (x, { w with hands := xs })

def Session.note (w : Session) (e : Event) : Session := { w with log := w.log ++ [e] }

/-- The most that one call of `send` takes. -/
def sendMax : ℕ := 0x7ffff000

/-- The bytes that the call is given with `len`.  A negative one is no length for
    `SSL_write`, and for `send` a `size_t` that no call takes. -/
def given (tls : Bool) (data : Bytes) : Bytes :=
  if 0 ≤ lenOf data then (cstr data).take (lenOf data).toNat
  else if tls then [] else (cstr data).take sendMax

/-- How many of `size` bytes `send` takes, or -1. -/
def Send.taken (size : ℕ) : Send → Option ℕ
  | .error => none
  | .part n => some (min n (size - 1))
  | .all => some size

def smtpWrite (data : Bytes) : Cmd := fun w =>
  let len := lenOf data
  let (x, w) := w.nextSend
  let bs := given w.ssl data
  if w.ssl then
    if x = .all ∧ 0 < len then (true, w.note (.wrote true bs true))
    else Cmd.fail (bytes "500 SSL_write error\r\n") (w.note (.wrote true bs false))
  else
    match x.taken bs.length with
    | none => Cmd.fail (bytes "500 send error\r\n") (w.note (.wrote false bs false))
    | some n =>
      if n < len then Cmd.fail (bytes "500 partial send\r\n") (w.note (.wrote false bs false))
      else (true, w.note (.wrote false (bs.take n) true))

/-- The result that `smtpWrite` has with this outcome. -/
def Send.passes (tls : Bool) (len : ℤ) : Send → Bool
  | .error => false
  | .part _ => !tls && decide (len ≤ 0)
  | .all => !tls || decide (0 < len)

/-- What is written with it, or was to be: with a negative `len` a part is not
    noticed. -/
def sent (tls : Bool) (data : Bytes) : Send → Bytes
  | .part n =>
    if tls ∨ 0 ≤ lenOf data then given tls data
    else (given tls data).take (min n ((given tls data).length - 1))
  | _ => given tls data

/-- The texts that `smtpWrite` fails with. -/
def writeErrors : List Bytes :=
  [bytes "500 SSL_write error\r\n", bytes "500 send error\r\n", bytes "500 partial send\r\n"]

theorem length_given {data : Bytes} (h : 0 ≤ lenOf data) (tls : Bool) :
    ((given tls data).length : ℤ) = lenOf data := by
  have hle : (lenOf data).toNat ≤ (cstr data).length := by
    rcases intOf_cases (cstr data).length with ⟨-, hlen⟩ | ⟨-, hlen⟩
    · change lenOf data = _ at hlen
      have := Nat.mod_le (cstr data).length (2 ^ 32)
      omega
    · exact absurd h (Int.not_le.2 hlen)
  rw [given, if_pos h, List.length_take, Nat.min_eq_left hle, Int.toNat_of_nonneg h]

theorem Session.nextSend_ssl (w : Session) : w.nextSend.2.ssl = w.ssl := by
  unfold Session.nextSend
  split
  · rfl
  · rfl

/-- **One write.** -/
theorem smtpWrite_eq (data : Bytes) (w : Session) : ∃ text ∈ writeErrors, smtpWrite data w =
    if w.nextSend.1.passes w.ssl (lenOf data) then
      (true, w.nextSend.2.note (.wrote w.ssl (sent w.ssl data w.nextSend.1) true))
    else
      Cmd.fail text (w.nextSend.2.note (.wrote w.ssl (sent w.ssl data w.nextSend.1) false)) := by
  have hssl := w.nextSend_ssl
  unfold smtpWrite
  rcases hx : w.nextSend with ⟨x, w'⟩
  rw [hx] at hssl
  dsimp only at hssl ⊢
  rw [hssl]
  cases w.ssl with
  | true =>
    have hsent : sent true data x = given true data := by
      cases x with
      | error | all => rfl
      | part n => rw [sent, if_pos (Or.inl rfl)]
    have hpass : x.passes true (lenOf data) = true ↔ x = .all ∧ 0 < lenOf data := by
      cases x <;> simp [Send.passes]
    refine ⟨bytes "500 SSL_write error\r\n", by simp [writeErrors], ?_⟩
    simp only [if_true, hsent, hpass]
  | false =>
    cases x with
    | error =>
      refine ⟨bytes "500 send error\r\n", by simp [writeErrors], ?_⟩
      simp only [Send.taken, Send.passes, sent, Bool.false_eq_true, if_false]
    | all =>
      have hle : ¬ ((given false data).length : ℤ) < lenOf data := by
        rcases Int.lt_or_le (lenOf data) 0 with hneg | hlen
        · omega
        · have := length_given hlen false
          omega
      refine ⟨bytes "500 partial send\r\n", by simp [writeErrors], ?_⟩
      simp only [Send.taken, Send.passes, if_neg hle, List.take_length, sent, Bool.not_false, Bool.true_or,
        if_true, Bool.false_eq_true, if_false]
    | part n =>
      refine ⟨bytes "500 partial send\r\n", by simp [writeErrors], ?_⟩
      rcases Int.lt_or_le (lenOf data) 0 with hneg | hlen
      · -- a negative `len` is below any count
        have hn : ¬ ((min n ((given false data).length - 1) : ℕ) : ℤ) < lenOf data := by omega
        have hpass : Send.passes false (lenOf data) (.part n) = true := by
          simp [Send.passes, Int.le_of_lt hneg]
        have hsent : sent false data (.part n) =
            (given false data).take (min n ((given false data).length - 1)) := by
          rw [sent, if_neg (by simp [Int.not_le.2 hneg])]
        simp only [Send.taken, if_neg hn, hpass, hsent, if_true, Bool.false_eq_true, if_false]
      · have hgiven := length_given hlen false
        have hpass : Send.passes false (lenOf data) (.part n) = true ↔
            ¬ ((min n ((given false data).length - 1) : ℕ) : ℤ) < lenOf data := by
          simp only [Send.passes, Bool.not_false, Bool.true_and, decide_eq_true_eq]
          omega
        have hsent : sent false data (.part n) = given false data := by rw [sent, if_pos (Or.inr hlen)]
        simp only [Send.taken, hpass, hsent, Bool.false_eq_true, if_false]
        by_cases hn : ((min n ((given false data).length - 1) : ℕ) : ℤ) < lenOf data
        · simp only [hn, if_true, not_true_eq_false, if_false]
        · rw [if_neg hn, if_pos hn, List.take_of_length_le (by omega)]

theorem smtpWrite_result (data : Bytes) (w : Session) :
    (smtpWrite data w).1 = w.nextSend.1.passes w.ssl (lenOf data) := by
  obtain ⟨text, -, h⟩ := smtpWrite_eq data w
  rw [h]
  split_ifs with hpass
  · exact hpass.symm
  · exact (Bool.eq_false_iff.2 hpass).symm

theorem smtpWrite_ssl (data : Bytes) (w : Session) : (smtpWrite data w).2.ssl = w.ssl := by
  obtain ⟨text, -, h⟩ := smtpWrite_eq data w
  rw [h]
  split_ifs
  · exact w.nextSend_ssl
  · exact w.nextSend_ssl

/-- A write that goes through. -/
theorem smtpWrite_passes {data : Bytes} {w : Session} {x : Send} {xs : List Send} (h : w.sends = x :: xs)
    (hpass : x.passes w.ssl (lenOf data) = true) : smtpWrite data w =
      (true, { w with sends := xs }.note (.wrote w.ssl (sent w.ssl data x) true)) := by
  obtain ⟨text, -, hw⟩ := smtpWrite_eq data w
  have hnext : w.nextSend = (x, { w with sends := xs }) := by rw [Session.nextSend, h]
  rw [hw, hnext, if_pos hpass]

theorem passes_of_pos {len : ℤ} (h : 0 < len) (tls : Bool) (x : Send) :
    x.passes tls len = decide (x = .all) := by
  cases x with
  | error => rfl
  | part n => simp [Send.passes, h]
  | all => simp [Send.passes, h]

theorem sent_isPrefix (tls : Bool) (data : Bytes) (x : Send) : sent tls data x <+: cstr data := by
  have hgiven : given tls data <+: cstr data := by
    unfold given
    split_ifs
    · exact List.take_prefix _ _
    · exact List.nil_prefix
    · exact List.take_prefix _ _
  cases x with
  | error | all => exact hgiven
  | part n =>
    simp only [sent]
    split_ifs
    · exact hgiven
    · exact (List.take_prefix _ _).trans hgiven

/-- With a `len` that is not negative, so many bytes are given. -/
theorem sent_of_nonneg {data : Bytes} (h : 0 ≤ lenOf data) (tls : Bool) (x : Send) :
    sent tls data x = (cstr data).take (lenOf data).toNat := by
  have hgiven : given tls data = (cstr data).take (lenOf data).toNat := if_pos h
  cases x with
  | error | all => exact hgiven
  | part n =>
    simp only [sent, h, or_true, if_true]
    exact hgiven

/-- **The whole of a string is written iff its length is an `int`.** -/
theorem sent_eq_iff (tls : Bool) (data : Bytes) (x : Send) :
    sent tls data x = cstr data ↔ (cstr data).length < 2 ^ 31 := by
  constructor
  · intro h
    by_contra hlong
    have hlen := congrArg List.length h
    rcases intOf_cases (cstr data).length with ⟨hmod, hint⟩ | ⟨-, hneg⟩
    · have hle := Nat.mod_lt (cstr data).length (show 0 < 2 ^ 32 by decide)
      have hlenOf : lenOf data = ((cstr data).length % 2 ^ 32 : ℕ) := hint
      rw [sent_of_nonneg (by omega), List.length_take, hlenOf, Int.toNat_natCast] at hlen
      omega
    · have hgiven : (given tls data).length ≤ sendMax := by
        unfold given
        rw [if_neg (show ¬ 0 ≤ lenOf data from Int.not_le.2 hneg)]
        split
        · exact Nat.zero_le _
        · exact List.length_take_le _ _
      have hsent : (sent tls data x).length ≤ (given tls data).length := by
        cases x with
        | error | all => exact Nat.le_refl _
        | part n =>
          simp only [sent]
          split_ifs
          · exact Nat.le_refl _
          · exact (List.take_prefix _ _).length_le
      have hmax : sendMax < 2 ^ 31 := by decide
      omega
  · intro hshort
    have hlen := lenOf_of_lt hshort
    rw [sent_of_nonneg (by omega), hlen, Int.toNat_natCast, List.take_length]

/-- What is written is the text up to its first NUL. -/
theorem sent_cstr (tls : Bool) (data : Bytes) (x : Send) : sent tls (cstr data) x = sent tls data x := by
  have hgiven : given tls (cstr data) = given tls data := by
    unfold given
    rw [lenOf_cstr, cstr_cstr]
  cases x with
  | error | all => exact hgiven
  | part n => simp only [sent, hgiven, lenOf_cstr]

/-- The buffer `char buf[1024]` after the read. -/
def replyBuf (bs : Bytes) : Bytes := store (List.replicate 1024 0) 0 bs

theorem replyBuf_eq (bs : Bytes) : replyBuf bs = bs ++ List.replicate (1024 - bs.length) 0 := by
  unfold replyBuf store
  rw [List.take_zero, List.nil_append, Nat.zero_add, List.drop_replicate]

/-- `responseStart`: behind the last LF but one. -/
def responseStart (bs : Bytes) : ℕ :=
  match strrchr ((replyBuf bs).set (bs.length - 1) 0) 10 with
  | some k => k + 1
  | none => 0

/-- `smtpExpect` for the bytes `bs` of a read. -/
def expectData (code bs : Bytes) : Cmd := fun w =>
  if w.ssl = true ∧ bs.length = 0 then Cmd.fail (bytes "500 SSL_read error\r\n") w
  else if bs.length < 4 then Cmd.fail (bytes "500 smtp server error, invalid response\r\n") w
  else if (replyBuf bs).getD (bs.length - 1) 0 ≠ 10 then
    Cmd.fail (bytes "500 smtp server error, invalid response\r\n") w
  else
    let response := (replyBuf bs).drop (responseStart bs)
    (strncmp code response 3, { w with err := strncpy w.err response errlen })

/-- Reading a reply changes the error text only. -/
theorem expectData_frame (code bs : Bytes) (w : Session) :
    ∃ b err, expectData code bs w = (b, { w with err := err }) := by
  unfold expectData
  split_ifs
  · exact ⟨_, _, rfl⟩
  · exact ⟨_, _, rfl⟩
  · exact ⟨_, _, rfl⟩
  · exact ⟨_, _, rfl⟩

def smtpExpect (code : Bytes) : Cmd := fun w =>
  let (x, w) := w.nextRecv
  let (ok, w) : Bool × Session := match x with
    | .pollError => Cmd.fail (bytes "500 poll error\r\n") w
    | .noInput => Cmd.fail (bytes "500 poll error, unexpected revents\r\n") w
    | .error => Cmd.fail (bytes (if w.ssl then "500 SSL_read error\r\n" else "500 recv error\r\n")) w
    | .data bs => expectData code bs w
  (ok, w.note (.expected code ok))

theorem smtpExpect_data {code : Bytes} {w : Session} {bs : Chunk} {rs : List Recv}
    (h : w.recvs = .data bs :: rs) : smtpExpect code w =
      ((expectData code bs.1 { w with recvs := rs }).1,
        (expectData code bs.1 { w with recvs := rs }).2.note
          (.expected code (expectData code bs.1 { w with recvs := rs }).1)) := by
  simp only [smtpExpect, Session.nextRecv, h]

/-! ## Setting a connection up -/

/-- `conn->ssl` is set before `SSL_connect` is called. -/
def smtpSSLConnect : Cmd := fun w =>
  let (x, w) := w.nextHand
  let w := { w with ssl := true }
  if x then (true, w) else Cmd.fail (bytes "500 SSL_connect error\r\n") w

def smtpEHLO (tp : Tp) : Cmd :=
  (if strcmp tp.ssl (bytes "SSL") then smtpSSLConnect else .ok).and <|
  (smtpExpect (bytes "220")).and <|
  (if strcmp tp.ssl (bytes "TLS") then
      (smtpWrite (bytes "EHLO localhost\r\n")).and <|
      (smtpExpect (bytes "250")).and <|
      (smtpWrite (bytes "STARTTLS\r\n")).and <|
      (smtpExpect (bytes "220")).and smtpSSLConnect
    else .ok).and <|
  (smtpWrite (bytes "EHLO localhost\r\n")).and (smtpExpect (bytes "250"))

def enMap : Bytes := bytes "ABCDEFGHIJKLMNOPQRSTUVWXYZabcdefghijklmnopqrstuvwxyz0123456789+/"

def enMapAt (i : UInt8) : UInt8 := enMap.getD i.toNat 0

/-- The groups of three bytes of `base64_encode`, and what is left of them. -/
def base64Groups : Bytes → Bytes
  | a :: b :: c :: rest =>
    enMapAt (a >>> 2) :: enMapAt (((a <<< 4) &&& (0x30 : UInt8)) ||| (b >>> 4)) ::
      enMapAt (((b <<< 2) &&& (0x3c : UInt8)) ||| (c >>> 6)) :: enMapAt (c &&& (0x3f : UInt8)) :: base64Groups rest
  | [a, b] =>
    [enMapAt (a >>> 2), enMapAt (((a <<< 4) &&& (0x30 : UInt8)) ||| (b >>> 4)),
      enMapAt (((b <<< 2) &&& (0x3c : UInt8)) ||| (0 : UInt8)), 61]
  | [a] => [enMapAt (a >>> 2), enMapAt (((a <<< 4) &&& (0x30 : UInt8)) ||| (0 : UInt8)), 61, 61]
  | [] => []

def base64_encode (in_ : Bytes) : Bytes := base64Groups in_ ++ [13, 10, 0]

def smtpAuth (tp : Tp) : Cmd :=
  if strcmp tp.password (bytes "__OUR_SMTP_PROXY_SKIP_AUTH__") then .ok
  else if !strcmp tp.auth (bytes "LOGIN") then .fail (bytes "500 unsupported smtp auth method\r\n")
  else
    (smtpWrite (bytes "AUTH LOGIN\r\n")).and <|
    (smtpExpect (bytes "334")).and <|
    (smtpWrite (base64_encode (cstr tp.username))).and <|
    (smtpExpect (bytes "334")).and <|
    (smtpWrite (base64_encode (cstr tp.password))).and (smtpExpect (bytes "235"))

/-! ## Mail transactions -/

/-- `char buf[1024]; snprintf(buf, 1024, "…<%s>\r\n", arg)` -/
def line1024 (head : String) (arg : Bytes) : Bytes :=
  snprintf (List.replicate 1024 0) 1024 (bytes head ++ cstr arg ++ bytes ">\r\n")

/-- A command line with its argument. -/
def argLine (head : String) (arg : Bytes) : Bytes := bytes head ++ arg ++ bytes ">\r\n"

theorem cstr_line1024 {head : String} (h0 : NulFree (bytes head)) (arg : Bytes) :
    cstr (line1024 head arg) = (argLine head (cstr arg)).take 1023 :=
  cstr_snprintf ((h0.append (cstr_nulFree arg)).append (by decide)) _ _

theorem short_line1024 {head : String} (h0 : NulFree (bytes head)) (arg : Bytes) :
    0 < lenOf (line1024 head arg) ∧ (cstr (line1024 head arg)).length < 2 ^ 31 := by
  have hlen : 0 < (cstr (line1024 head arg)).length ∧ (cstr (line1024 head arg)).length ≤ 1023 := by
    rw [cstr_line1024 h0, List.length_take, argLine, List.length_append,
      show (bytes ">\r\n").length = 3 from rfl]
    omega
  have hint := lenOf_of_lt (m := line1024 head arg) (by omega)
  omega

def smtpMAILFROM (from_ : Bytes) : Cmd :=
  (smtpWrite (line1024 "MAIL FROM:<" from_)).and (smtpExpect (bytes "250"))

/-- One recipient: 251 is accepted as well. -/
def rcptTo (to_ : Bytes) : Cmd :=
  ((smtpWrite (line1024 "RCPT TO:<" to_)).and (smtpExpect (bytes "250"))).orCode (bytes "251")

def smtpRCPTTO : List Bytes → Cmd
  | [] => .ok
  | to_ :: toList => (rcptTo to_).and (smtpRCPTTO toList)

def smtpDATA (data : Bytes) : Cmd :=
  (smtpWrite (bytes "DATA\r\n")).and <|
  (smtpExpect (bytes "354")).and <|
  (smtpWrite data).and (smtpExpect (bytes "250"))

def smtpRSET : Cmd :=
  (smtpWrite (bytes "RSET\r\n")).and ((smtpExpect (bytes "250")).orCode (bytes "220"))

def smtpNOOP : Cmd := (smtpWrite (bytes "NOOP\r\n")).and (smtpExpect (bytes "250"))

def smtpQUIT : Cmd := (smtpWrite (bytes "QUIT\r\n")).and (smtpExpect (bytes "221"))

end SmtpProxy
