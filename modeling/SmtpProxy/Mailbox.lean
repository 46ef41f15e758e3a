/-
  The mails that a transport's server takes from the bytes it is sent.

  The server reads a stream of lines: commands, the two answers of AUTH LOGIN,
  and behind DATA the lines of a mail, up to a single dot.  It is stated here as
  the protocol has it, for the commands that smtp.c sends; whether the server
  accepts what it reads is told by its replies, which are not part of it.

  * `Mailbox.line`: the next line, `Mailbox.after` any bytes;
  * `Round`: what is done on a connection that is set up, with the lines it
    consists of and the mail it hands in;
  * `after_setup`, `after_round`: a whole round leaves its mail, if it has one, and
    nothing else; `mails_part`: a part of one leaves nothing.
-/
import SmtpProxy.CommandLines
import SmtpProxy.SendRawMail
import SmtpProxy.Base64
import SmtpProxy.Lib.Intake

namespace SmtpProxy

open CString Search

structure Mail where
  from_ : Bytes
  to_ : List Bytes
  text : Bytes
  deriving DecidableEq

/-- What the server takes the next line for. -/
inductive Mailbox.Mode where
  | command
  | login (left : ℕ)  -- an answer of AUTH LOGIN, and how many follow
  | data (ls : List Bytes)  -- a line of a mail, behind `ls`
  deriving DecidableEq

structure Mailbox where
  mode : Mailbox.Mode
  from_ : Option Bytes
  to_ : List Bytes
  mails : List Mail
  deriving DecidableEq

/-- A command line with its argument, without its line end. -/
def headLine (head : String) (arg : Bytes) : Bytes := bytes head ++ arg ++ [62]

/-- The argument of such a line. -/
def argument? (head : String) (l : Bytes) : Option Bytes :=
  if bytes head <+: l ∧ [62] <:+ l then some ((l.drop (bytes head).length).dropLast) else none

namespace Mailbox

def empty : Mailbox := ⟨.command, none, [], []⟩

/-- No transaction is under way. -/
def reset (b : Mailbox) : Mailbox := { b with mode := .command, from_ := none, to_ := [] }

def store (b : Mailbox) (ls : List Bytes) : Mailbox :=
  { b.reset with mails := b.mails ++ [⟨b.from_.getD [], b.to_, text ls⟩] }

def command (b : Mailbox) (l : Bytes) : Mailbox :=
  match argument? "MAIL FROM:<" l, argument? "RCPT TO:<" l with
  | some x, _ => { b with from_ := some x, to_ := [] }
  | none, some r => if b.from_.isSome then { b with to_ := b.to_ ++ [r] } else b
  | none, none =>
    if l = bytes "DATA" then if b.from_.isSome ∧ b.to_ ≠ [] then { b with mode := .data [] } else b
    else if l = bytes "RSET" ∨ bytes "EHLO " <+: l then b.reset
    else if l = bytes "AUTH LOGIN" then { b with mode := .login 1 }
    else b

/-- The next line. -/
def line (b : Mailbox) (l : Bytes) : Mailbox :=
  match b.mode with
  | .command => b.command l
  | .login 0 => { b with mode := .command }
  | .login (n + 1) => { b with mode := .login n }
  | .data ls => if l = [46] then b.store ls else { b with mode := .data (ls ++ [strip 46 l]) }

/-- What the server has taken in, and what has come of the next line. -/
def intake (b : Mailbox) (bs : Bytes) : Intake UInt8 Mailbox := Intake.feed crlf line ⟨[], b⟩ bs

def after (b : Mailbox) (bs : Bytes) : Mailbox := (b.intake bs).state

/-! ## Lines -/

section
variable {b : Mailbox} {l : Bytes} {ls : List Bytes}

theorem argument_headLine (head : String) (arg : Bytes) : argument? head (headLine head arg) = some arg := by
  have hcond : bytes head <+: headLine head arg ∧ [62] <:+ headLine head arg :=
    ⟨⟨arg ++ [62], (List.append_assoc _ _ _).symm⟩, List.suffix_append _ _⟩
  have hdrop : (headLine head arg).drop (bytes head).length = arg ++ [62] := by
    rw [headLine, List.append_assoc, List.drop_left]
  rw [argument?, if_pos hcond, hdrop, List.dropLast_concat]

theorem argument_rcpt (arg : Bytes) : argument? "MAIL FROM:<" (headLine "RCPT TO:<" arg) = none := by
  refine if_neg fun h => ?_
  have hhead := h.1
  rw [headLine, List.append_assoc] at hhead
  exact absurd (List.cons_prefix_cons.1 hhead).1 (by decide)

theorem line_mail (hb : b.mode = .command) (x : Bytes) :
    b.line (headLine "MAIL FROM:<" x) = { b with from_ := some x, to_ := [] } := by
  simp only [line, hb, command, argument_headLine]

theorem line_rcpt (hb : b.mode = .command) (hfrom : b.from_.isSome) (r : Bytes) :
    b.line (headLine "RCPT TO:<" r) = { b with to_ := b.to_ ++ [r] } := by
  simp only [line, hb, command, argument_rcpt, argument_headLine, hfrom, if_true]

theorem line_data (hb : b.mode = .command) (hfrom : b.from_.isSome) (hto : b.to_ ≠ []) :
    b.line (bytes "DATA") = { b with mode := .data [] } := by
  have h₁ : argument? "MAIL FROM:<" (bytes "DATA") = none := by decide
  have h₂ : argument? "RCPT TO:<" (bytes "DATA") = none := by decide
  simp only [line, hb, command, h₁, h₂, if_true]
  exact if_pos ⟨hfrom, hto⟩

/-- Of a transaction, the recipients are taken one after the other. -/
theorem foldl_rcpt (hb : b.mode = .command) (hfrom : b.from_.isSome) (rs : List Bytes) :
    (rs.map (headLine "RCPT TO:<")).foldl line b = { b with to_ := b.to_ ++ rs } := by
  induction rs generalizing b with
  | nil => rw [List.append_nil]; rfl
  | cons r rs ih =>
    have hrest := ih (b := { b with to_ := b.to_ ++ [r] }) hb hfrom
    rw [List.map_cons, List.foldl_cons, line_rcpt hb hfrom, hrest, List.append_assoc]
    rfl

/-- And so are the lines of a mail. -/
theorem foldl_data {got : List Bytes} (hb : b.mode = .data got) (hdot : [46] ∉ ls) :
    ls.foldl line b = { b with mode := .data (got ++ ls.map (strip 46)) } := by
  induction ls generalizing b got with
  | nil => rw [List.map_nil, List.append_nil, ← hb]; rfl
  | cons l ls ih =>
    rw [List.mem_cons, not_or] at hdot
    have hline : b.line l = { b with mode := .data (got ++ [strip 46 l]) } := by
      simp only [line, hb, if_neg (Ne.symm hdot.1)]
    rw [List.foldl_cons, hline, ih rfl hdot.2, List.map_cons, List.append_assoc]
    rfl

/-- No mail is lost. -/
theorem mails_line (b : Mailbox) (l : Bytes) : b.mails <+: (b.line l).mails := by
  obtain ⟨mode, from_, to_, mails⟩ := b
  cases mode with
  | command =>
    simp only [line, command]
    split
    · exact List.prefix_rfl
    · split
      · exact List.prefix_rfl
      · exact List.prefix_rfl
    · split_ifs
      · exact List.prefix_rfl
      · exact List.prefix_rfl
      · exact List.prefix_rfl
      · exact List.prefix_rfl
      · exact List.prefix_rfl
  | login n => cases n <;> exact List.prefix_rfl
  | data got =>
    simp only [line]
    split
    · exact List.prefix_append _ _
    · exact List.prefix_rfl

theorem mails_foldl (ls : List Bytes) (b : Mailbox) : b.mails <+: (ls.foldl line b).mails := by
  induction ls generalizing b with
  | nil => exact List.prefix_rfl
  | cons l ls ih => exact (mails_line b l).trans (ih (b.line l))

/-- Where lines leave no mail, none of them does. -/
theorem mails_take (h : (ls.foldl line b).mails = b.mails) (k : ℕ) :
    ((ls.take k).foldl line b).mails = b.mails := by
  have hle := mails_foldl (ls.drop k) ((ls.take k).foldl line b)
  rw [← List.foldl_append, List.take_append_drop, h] at hle
  exact hle.eq_of_length_le (mails_foldl _ _).length_le

end

end Mailbox

/-! ## What is sent, as lines -/

/-- The lines that set a connection up. -/
def setupLines (tp : Tp) : List Bytes :=
  (if strcmp tp.ssl (bytes "TLS") then [bytes "EHLO localhost", bytes "STARTTLS"] else []) ++
    [bytes "EHLO localhost"] ++
    if strcmp tp.password (bytes "__OUR_SMTP_PROXY_SKIP_AUTH__") then []
    else if !strcmp tp.auth (bytes "LOGIN") then []
    else [bytes "AUTH LOGIN", base64Groups (cstr tp.username), base64Groups (cstr tp.password)]

/-- A payload: lines, of which the last is the first that is a single dot. -/
def Payload (d : Bytes) : Prop :=
  ∃ ls, (∀ l ∈ ls, ¬ crlf <:+: l) ∧ [46] ∉ ls ∧ d = text (ls ++ [[46]])

/-- The text of the mail that a payload stands for. -/
def content (d : Bytes) : Bytes := text ((Intake.lines crlf d).dropLast.map (strip 46))

/-- What is done on a connection that is set up. -/
inductive Round where
  | noop
  | rset
  | mail (toList : List Bytes) (data : Bytes)
  deriving DecidableEq

namespace Round
variable (tp : Tp)

def ops : Round → List Op
  | noop => noopOps
  | rset => rsetOps
  | mail toList data => mailOps tp toList data

/-- The mail that is handed in. -/
def mail? : Round → Option Mail
  | mail toList data => some ⟨cstr tp.name, toList.map cstr, content (cstr data)⟩
  | _ => none

/-- What is handed in fits into lines, and the length of the payload is an `int`. -/
def Fits : Round → Prop
  | mail toList data => toList ≠ [] ∧ (∀ r ∈ toList, ¬ crlf <:+: cstr r ∧ (cstr r).length ≤ 1011) ∧
    Payload (cstr data) ∧ (cstr data).length < 2 ^ 31
  | _ => True

def lines : Round → List Bytes
  | noop => [bytes "NOOP"]
  | rset => [bytes "RSET"]
  | mail toList data => headLine "MAIL FROM:<" (cstr tp.name) ::
      (toList.map (fun r => headLine "RCPT TO:<" (cstr r)) ++ bytes "DATA" :: Intake.lines crlf (cstr data))

end Round

/-- What a list of calls has to write. -/
def stream (os : List Op) : Bytes := ((os.filterMap Op.text?).map cstr).flatten

/-- What a call has to write is written whole by one call of `send`. -/
def Op.Short : Op → Bool
  | .write data => (cstr data).length < 2 ^ 31
  | _ => true

theorem short_write {data : Bytes} (h : (cstr data).length < 2 ^ 31) : (Op.write data).Short :=
  decide_eq_true h

section
variable {tp : Tp} {b : Mailbox} {os os' : List Op} {q : Bytes}

theorem stream_append : stream (os ++ os') = stream os ++ stream os' := by
  rw [stream, List.filterMap_append, List.map_append, List.flatten_append]
  rfl

theorem text_append (ls ls' : List Bytes) : text (ls ++ ls') = text ls ++ text ls' := by
  rw [text, List.map_append, List.flatten_append]
  rfl

/-- In front of what does not begin a line end, a mark is behind it. -/
theorem free_append {s t : Bytes} (hs : 13 ∉ s) (ht : ¬ crlf <:+: t) : ¬ crlf <:+: s ++ t := by
  induction s with
  | nil => exact ht
  | cons c s ih =>
    rw [List.mem_cons, not_or] at hs
    rw [List.cons_append, List.infix_cons_iff, not_or]
    exact ⟨fun h => hs.1 (List.cons_prefix_cons.1 h).1, ih hs.2⟩

theorem free_headLine {head : String} {arg : Bytes} (hhead : 13 ∉ bytes head) (harg : ¬ crlf <:+: arg) :
    ¬ crlf <:+: headLine head arg := by
  rw [headLine, List.append_assoc]
  refine free_append hhead fun h => ?_
  rcases List.infix_concat_iff.1 h with h | h
  · have hlast := h.getLast (by decide)
    simp [crlf] at hlast
  · exact harg h

theorem base64Groups_free (in_ : Bytes) : ¬ crlf <:+: base64Groups in_ := by
  intro h
  have hmem : 13 ∈ base64Groups in_ := h.subset (by decide)
  rw [base64Groups_eq] at hmem
  rcases Base64.mem_encode hmem with h | ⟨v, hv, h⟩
  · cases h
  · have hne : ∀ v < 64, Base64.standard v ≠ 13 := by decide
    exact hne v hv h.symm

theorem cstr_base64_encode (in_ : Bytes) : cstr (base64_encode in_) = base64Groups in_ ++ crlf := by
  have hcut : base64_encode in_ = (base64Groups in_ ++ crlf) ++ 0 :: [] := by
    rw [base64_encode, List.append_assoc]
    rfl
  rw [hcut]
  exact cstr_append_zero (base64Groups_nulFree.append crlf_nulFree) _

/-! ## The set-up -/

theorem setupLines_free : ∀ l ∈ setupLines tp, ¬ crlf <:+: l := by
  have hfixed : ∀ l ∈ [bytes "EHLO localhost", bytes "STARTTLS", bytes "AUTH LOGIN"], ¬ crlf <:+: l := by
    decide
  intro l hl
  unfold setupLines at hl
  simp only [List.mem_append, List.mem_singleton] at hl
  rcases hl with (hl | rfl) | hl
  · split at hl
    · exact hfixed l (by simp only [List.mem_cons, List.not_mem_nil, or_false] at hl ⊢; tauto)
    · cases hl
  · exact hfixed _ (by simp)
  · split at hl
    · cases hl
    · split at hl
      · cases hl
      · simp only [List.mem_cons, List.not_mem_nil, or_false] at hl
        rcases hl with rfl | rfl | rfl
        · exact hfixed _ (by simp)
        · exact base64Groups_free _
        · exact base64Groups_free _

theorem stream_setup (tp : Tp) : stream (ehloOps tp ++ authOps tp) = text (setupLines tp) := by
  rw [stream_append, setupLines, text_append]
  congr 1
  · unfold ehloOps stream
    split_ifs <;> rfl
  · unfold authOps stream
    split_ifs
    · rfl
    · rfl
    · have hwrite : ∀ data, (Op.write data).text? = some data := fun _ => rfl
      have hexpect : ∀ code, (Op.expect code).text? = none := fun _ => rfl
      have hauth : cstr (bytes "AUTH LOGIN\r\n") = bytes "AUTH LOGIN" ++ crlf := by decide
      simp [hwrite, hexpect, text, cstr_base64_encode, hauth]

namespace Mailbox

theorem line_ehlo (hb : b.mode = .command) : b.line (bytes "EHLO localhost") = b.reset := by
  obtain ⟨mode, from_, to_, mails⟩ := b
  subst hb
  rfl

theorem line_starttls (hb : b.mode = .command) : b.line (bytes "STARTTLS") = b := by
  obtain ⟨mode, from_, to_, mails⟩ := b
  subst hb
  rfl

theorem line_noop (hb : b.mode = .command) : b.line (bytes "NOOP") = b := by
  obtain ⟨mode, from_, to_, mails⟩ := b
  subst hb
  rfl

theorem line_rset (hb : b.mode = .command) : b.line (bytes "RSET") = b.reset := by
  obtain ⟨mode, from_, to_, mails⟩ := b
  subst hb
  rfl

theorem foldl_login (hb : b.mode = .command) (u p : Bytes) :
    [bytes "AUTH LOGIN", u, p].foldl line b = b := by
  obtain ⟨mode, from_, to_, mails⟩ := b
  subst hb
  rfl

theorem intake_text {ls : List Bytes} (h : ∀ l ∈ ls, ¬ crlf <:+: l) :
    b.intake (text ls) = ⟨[], ls.foldl line b⟩ := Intake.feed_lines unbordered_crlf h

theorem intake_append (s t : Bytes) {b' : Mailbox} (h : b.intake s = ⟨[], b'⟩) :
    b.intake (s ++ t) = b'.intake t := by
  rw [intake, Intake.feed_append, ← intake, h]
  rfl

/-- A part of the lines is a part of them that ends and what has come of the next. -/
theorem after_part {ls : List Bytes} (h : ∀ l ∈ ls, ¬ crlf <:+: l) (hq : q <+: text ls)
    (hne : q ≠ text ls) : ∃ k < ls.length, b.after q = (ls.take k).foldl line b :=
  Intake.feed_init unbordered_crlf h hq hne

theorem foldl_setup (hb : b.mode = .command) : (setupLines tp).foldl line b = b.reset := by
  have hauth : ∀ b' : Mailbox, b'.mode = .command → (if strcmp tp.password
      (bytes "__OUR_SMTP_PROXY_SKIP_AUTH__") then [] else if !strcmp tp.auth (bytes "LOGIN") then []
      else [bytes "AUTH LOGIN", base64Groups (cstr tp.username), base64Groups (cstr tp.password)]).foldl
        line b' = b' := by
    intro b' hb'
    split_ifs
    · rfl
    · rfl
    · exact foldl_login hb' _ _
  have htls : [bytes "EHLO localhost", bytes "STARTTLS"].foldl line b = b.reset := by
    rw [List.foldl_cons, line_ehlo hb, List.foldl_cons, line_starttls rfl, List.foldl_nil]
  have hehlo : ∀ b' : Mailbox, b'.mode = .command → [bytes "EHLO localhost"].foldl line b' = b'.reset :=
    fun b' hb' => line_ehlo hb'
  rw [setupLines, List.foldl_append, List.foldl_append]
  split
  · rw [htls, hehlo b.reset rfl, hauth b.reset.reset rfl]
    rfl
  · rw [List.foldl_nil, hehlo b hb, hauth b.reset rfl]

/-- **The set-up** leaves no mail. -/
theorem after_setup (hb : b.mode = .command) :
    b.intake (stream (ehloOps tp ++ authOps tp)) = ⟨[], b.reset⟩ := by
  rw [stream_setup, intake_text setupLines_free, foldl_setup hb]

variable (tp) in
/-- And no part of it does. -/
theorem mails_setup (hb : b.mode = .command) (hq : q <+: stream (ehloOps tp ++ authOps tp)) :
    (b.after q).mails = b.mails := by
  by_cases hne : q = stream (ehloOps tp ++ authOps tp)
  · rw [hne, after, after_setup hb]
    rfl
  · rw [stream_setup] at hq hne
    obtain ⟨k, -, hafter⟩ := after_part (b := b) setupLines_free hq hne
    rw [hafter]
    refine mails_take ?_ k
    rw [foldl_setup hb]
    rfl

end Mailbox

/-! ## Rounds -/

/-- What AUTH LOGIN sends is written whole. -/
def Tp.ShortAuth (tp : Tp) : Prop := (cstr tp.username).length < 2 ^ 30 ∧ (cstr tp.password).length < 2 ^ 30

/-- The name of the transport fits into a line. -/
structure Tp.Fits (tp : Tp) : Prop where
  free : ¬ crlf <:+: cstr tp.name
  short : (cstr tp.name).length ≤ 1009
  auth : tp.ShortAuth

theorem short_base64 {s : Bytes} (h : (cstr s).length < 2 ^ 30) :
    (Op.write (base64_encode (cstr s))).Short := by
  have hle : (cstr (base64_encode (cstr s))).length ≤ (base64_encode (cstr s)).length :=
    (List.takeWhile_prefix _).length_le
  have hlen := @length_base64_encode (cstr s)
  exact short_write (by omega)

theorem short_setup (h : tp.ShortAuth) : ∀ o ∈ ehloOps tp ++ authOps tp, o.Short := by
  refine List.forall_mem_append.2 ⟨?_, ?_⟩
  · unfold ehloOps
    split_ifs <;> decide
  · unfold authOps
    split_ifs
    · exact nofun
    · decide
    · simp only [List.forall_mem_cons]
      exact ⟨by decide, rfl, short_base64 h.1, rfl, short_base64 h.2, rfl, nofun⟩

theorem short_mail (tp : Tp) (toList : List Bytes) {data : Bytes} (h : (cstr data).length < 2 ^ 31) :
    ∀ o ∈ mailOps tp toList data, o.Short := by
  have hline : ∀ {head : String} (_ : NulFree (bytes head)) (arg : Bytes), (Op.write (line1024 head arg)).Short :=
    fun h0 arg => short_write (short_line1024 h0 arg).2
  have hrcpt : ∀ o ∈ rcptOps toList, o.Short := by
    induction toList with
    | nil => exact nofun
    | cons to_ toList ih =>
      rw [rcptOps_cons, List.forall_mem_append]
      exact ⟨by simp only [List.forall_mem_cons]; exact ⟨hline (by decide) _, rfl, nofun⟩, ih⟩
  simp only [mailOps, dataOps, List.forall_mem_append, List.forall_mem_cons]
  exact ⟨⟨⟨hline (by decide) _, rfl, nofun⟩, hrcpt⟩, by decide, rfl, short_write h, rfl, nofun⟩

theorem argLine_eq (head : String) (arg : Bytes) : argLine head arg = headLine head arg ++ crlf := by
  have hend : bytes ">\r\n" = [62] ++ crlf := by decide
  rw [argLine, headLine, hend, List.append_assoc, List.append_assoc, List.append_assoc]

theorem lines_payload {ls : List Bytes} (h : ∀ l ∈ ls, ¬ crlf <:+: l) :
    Intake.lines crlf (text (ls ++ [[46]])) = ls ++ [[46]] := by
  refine Intake.lines_flatten unbordered_crlf fun l hl => ?_
  rcases List.mem_append.1 hl with hl | hl
  · exact h l hl
  · rw [List.mem_singleton.1 hl]
    decide

namespace Round
variable {x : Round}

theorem lines_free (hname : tp.Fits) (hx : x.Fits) : ∀ l ∈ x.lines tp, ¬ crlf <:+: l := by
  cases x with
  | noop => exact List.forall_mem_singleton.2 (by decide)
  | rset => exact List.forall_mem_singleton.2 (by decide)
  | mail toList data =>
    obtain ⟨-, hto, ⟨ls, hls, -, hdata⟩, -⟩ := hx
    rw [lines, hdata, lines_payload hls]
    intro l hl
    simp only [List.mem_cons, List.mem_append, List.mem_map, List.not_mem_nil, or_false] at hl
    rcases hl with rfl | ⟨r, hr, rfl⟩ | rfl | hl | rfl
    · exact free_headLine (by decide) hname.free
    · exact free_headLine (by decide) (hto r hr).1
    · decide
    · exact hls l hl
    · decide

/-- **What a round sends are its lines.** -/
theorem stream_eq (hname : tp.Fits) (hx : x.Fits) : stream (x.ops tp) = text (x.lines tp) := by
  cases x with
  | noop =>
    have hnoop : stream noopOps = text [bytes "NOOP"] := by decide
    exact hnoop
  | rset =>
    have hrset : stream rsetOps = text [bytes "RSET"] := by decide
    exact hrset
  | mail toList data =>
    obtain ⟨-, hto, ⟨ls, hls, -, hdata⟩, -⟩ := hx
    have hfits : ∀ l ∈ commandLines (cstr tp.name) (toList.map cstr), l.length ≤ 1023 := by
      refine (fits_iff _ _).2 ⟨hname.short, fun r hr => ?_⟩
      obtain ⟨r', hr', rfl⟩ := List.mem_map.1 hr
      exact (hto r' hr').2
    have hflat : (commandLines (cstr tp.name) (toList.map cstr)).flatten =
        text (headLine "MAIL FROM:<" (cstr tp.name) ::
          (toList.map (fun r => headLine "RCPT TO:<" (cstr r)) ++ [bytes "DATA"])) := by
      have hmap : (toList.map cstr).map (argLine "RCPT TO:<") =
          (toList.map fun r => headLine "RCPT TO:<" (cstr r)).map (· ++ crlf) := by
        rw [List.map_map, List.map_map]
        exact List.map_congr_left fun r _ => argLine_eq _ _
      have hword : bytes "DATA\r\n" = bytes "DATA" ++ crlf := by decide
      rw [commandLines, hmap, argLine_eq, hword, text, List.map_cons, List.map_append]
      rfl
    have hlines : Intake.lines crlf (cstr data) = ls ++ [[46]] := by rw [hdata, lines_payload hls]
    have htexts : ((requests tp toList data).map Request.text).map cstr = texts tp toList data := by
      rw [List.map_map, ← requests_texts]
      rfl
    rw [ops, stream, texts_mail, htexts, texts_eq, List.flatten_append, sentLines_eq,
      flatten_take_iff.2 hfits, hflat, List.flatten_singleton, lines, hlines]
    conv_lhs => rw [hdata]
    rw [← text_append, List.cons_append, List.append_assoc]
    rfl

/-- A transaction, up to the end of its mail. -/
theorem foldl_mail (hb : b.mode = .command) (name : Bytes) (rs : List Bytes) {ls : List Bytes}
    (hrs : rs ≠ []) (hdot : [46] ∉ ls) :
    (headLine "MAIL FROM:<" name :: (rs.map (headLine "RCPT TO:<") ++ bytes "DATA" :: ls)).foldl
        Mailbox.line b =
      { b with mode := .data (ls.map (strip 46)), from_ := some name, to_ := rs } := by
  have hto := Mailbox.foldl_rcpt (b := { b with from_ := some name, to_ := [] }) hb rfl rs
  have hdata := Mailbox.line_data (b := { b with from_ := some name, to_ := rs }) hb rfl hrs
  have hls := Mailbox.foldl_data
    (b := { b with mode := .data [], from_ := some name, to_ := rs }) rfl hdot
  rw [List.foldl_cons, Mailbox.line_mail hb, List.foldl_append, hto, List.foldl_cons, List.nil_append,
    hdata]
  exact hls

variable (tp) in
/-- The lines of a round, but for the last, leave no mail; with it they leave the
    mail that is handed in. -/
theorem foldl_lines (hb : b.mode = .command) (hx : x.Fits) :
    (((x.lines tp).dropLast.foldl Mailbox.line b).mails = b.mails) ∧
      ((x.lines tp).foldl Mailbox.line b).mode = .command ∧
      ((x.lines tp).foldl Mailbox.line b).mails = b.mails ++ (x.mail? tp).toList := by
  cases x with
  | noop =>
    have hfold : ((noop.lines tp).foldl Mailbox.line b) = b := Mailbox.line_noop hb
    rw [hfold]
    exact ⟨rfl, hb, (List.append_nil _).symm⟩
  | rset =>
    have hfold : ((rset.lines tp).foldl Mailbox.line b) = b.reset := Mailbox.line_rset hb
    rw [hfold]
    exact ⟨rfl, rfl, (List.append_nil _).symm⟩
  | mail toList data =>
    obtain ⟨hne, -, ⟨ls, hls, hdot, hdata⟩, -⟩ := hx
    have hlines : (mail toList data).lines tp = headLine "MAIL FROM:<" (cstr tp.name) ::
        ((toList.map cstr).map (headLine "RCPT TO:<") ++ bytes "DATA" :: ls) ++ [[46]] := by
      rw [lines, hdata, lines_payload hls, List.map_map, List.cons_append, List.append_assoc,
        List.cons_append]
      rfl
    have hmail : mail? tp (mail toList data) =
        some ⟨cstr tp.name, toList.map cstr, text (ls.map (strip 46))⟩ := by
      rw [mail?, content, hdata, lines_payload hls, List.dropLast_concat]
    have hfold := foldl_mail hb (cstr tp.name) (toList.map cstr) (by simpa using hne) hdot
    rw [hlines, List.dropLast_concat, List.foldl_append, hfold, hmail]
    exact ⟨rfl, rfl, rfl⟩

/-- **A whole round** leaves the mail that it hands in, if it does. -/
theorem intake_round (hname : tp.Fits) (hx : x.Fits) (hb : b.mode = .command) :
    ∃ b', b.intake (stream (x.ops tp)) = ⟨[], b'⟩ ∧ b'.mode = .command ∧
      b'.mails = b.mails ++ (x.mail? tp).toList := by
  obtain ⟨-, hmode, hmails⟩ := foldl_lines tp hb hx
  exact ⟨_, by rw [stream_eq hname hx, Mailbox.intake_text (lines_free hname hx)], hmode, hmails⟩

/-- **A part of a round** leaves nothing. -/
theorem mails_part (hname : tp.Fits) (hx : x.Fits) (hb : b.mode = .command)
    (hq : q <+: stream (x.ops tp)) (hne : q ≠ stream (x.ops tp)) : (b.after q).mails = b.mails := by
  rw [stream_eq hname hx] at hq hne
  obtain ⟨k, hk, hafter⟩ := Mailbox.after_part (b := b) (lines_free hname hx) hq hne
  have htake : (x.lines tp).take k = (x.lines tp).dropLast.take k := by
    rw [List.dropLast_eq_take, List.take_take, Nat.min_eq_left (by omega)]
  rw [hafter, htake]
  exact Mailbox.mails_take (foldl_lines tp hb hx).1 k

end Round

/-! ## Sessions -/

/-- The calls of a session of these rounds. -/
def sessionOps (tp : Tp) (xs : List Round) : List Op :=
  ehloOps tp ++ authOps tp ++ xs.flatMap (Round.ops tp)

theorem sessionOps_snoc (xs : List Round) (x : Round) :
    sessionOps tp (xs ++ [x]) = sessionOps tp xs ++ x.ops tp := by
  rw [sessionOps, List.flatMap_append, List.flatMap_singleton, ← List.append_assoc]
  rfl

theorem Round.short_ops (tp : Tp) {x : Round} (hx : x.Fits) : ∀ o ∈ x.ops tp, o.Short := by
  cases x with
  | noop => exact (by decide : ∀ o ∈ noopOps, o.Short)
  | rset => exact (by decide : ∀ o ∈ rsetOps, o.Short)
  | mail toList data => exact short_mail tp toList hx.2.2.2

theorem short_session (hname : tp.Fits) {xs : List Round} (hxs : ∀ x ∈ xs, x.Fits) :
    ∀ o ∈ sessionOps tp xs, o.Short := by
  refine List.forall_mem_append.2 ⟨short_setup hname.auth, fun o ho => ?_⟩
  obtain ⟨x, hx, ho⟩ := List.mem_flatMap.1 ho
  exact Round.short_ops tp (hxs x hx) o ho

/-- **A session** leaves the mails of its rounds, in their order. -/
theorem intake_session (hname : tp.Fits) {xs : List Round} (hxs : ∀ x ∈ xs, x.Fits) :
    ∃ b, Mailbox.empty.intake (stream (sessionOps tp xs)) = ⟨[], b⟩ ∧ b.mode = .command ∧
      b.mails = xs.filterMap (Round.mail? tp) := by
  induction xs using List.reverseRecOn with
  | nil =>
    refine ⟨Mailbox.empty.reset, ?_, rfl, rfl⟩
    have hnil : sessionOps tp [] = ehloOps tp ++ authOps tp := List.append_nil _
    rw [hnil]
    exact Mailbox.after_setup rfl
  | append_singleton xs x ih =>
    obtain ⟨hinit, hx⟩ := List.forall_mem_append.1 hxs
    obtain ⟨b, hb, hmode, hmails⟩ := ih hinit
    obtain ⟨b', hb', hmode', hmails'⟩ := Round.intake_round hname (hx x List.mem_cons_self) hmode
    refine ⟨b', ?_, hmode', ?_⟩
    · rw [sessionOps_snoc, stream_append, Mailbox.intake_append _ _ hb, hb']
    · rw [hmails', hmails, List.filterMap_append]
      cases hmail : Round.mail? tp x with
      | none => simp [hmail]
      | some m => simp [hmail]

end

end SmtpProxy
