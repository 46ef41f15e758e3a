/-
  Replies and reads: what `smtpExpect` makes of a server's replies.

  A `Reply` is well formed by construction.  An `Exchange` is one command with
  the code expected for it, the server's reply, and what the read after it
  returns; `Delivers` says that the reads are the reply bytes, cut anyhow, with
  each reply sent after its command.

  * `replyOf_lines`: a read that is a list of whole lines is judged by its last
    line;
  * `paired_iff`: each command is paired with its reply iff each read is a
    whole reply, and `observed_iff`: results and error texts alone show that;
  * `greeting_split`: a greeting of two lines, read line by line.
-/
import SmtpProxy.Dialogue
import SmtpProxy.Envelope

namespace SmtpProxy

open CString

/-! ## Lines -/

/-- A line with its LF. -/
def IsLine (l : Bytes) : Prop := ∃ t, l = t ++ [10] ∧ (10 : UInt8) ∉ t ∧ NulFree t

theorem IsLine.nulFree {l : Bytes} (h : IsLine l) : NulFree l := by
  obtain ⟨t, rfl, -, h0⟩ := h
  exact h0.append (by decide)

theorem nulFree_flatten {ls : List Bytes} (h : ∀ l ∈ ls, IsLine l) : NulFree ls.flatten := by
  intro h0
  obtain ⟨l, hl, h0⟩ := List.mem_flatten.1 h0
  exact (h l hl).nulFree h0

/-- Whole lines are nothing, or end in LF. -/
theorem lines_end {ls : List Bytes} (h : ∀ l ∈ ls, IsLine l) :
    ls.flatten = [] ∨ ∃ a, ls.flatten = a ++ [10] := by
  rcases List.eq_nil_or_concat ls with rfl | ⟨ls, l, rfl⟩
  · exact Or.inl rfl
  · obtain ⟨t, rfl, -, -⟩ := h l (by simp)
    exact Or.inr ⟨ls.flatten ++ t, by simp⟩

/-- What is read of some lines, and ends in LF, are the first of them. -/
theorem take_lines : ∀ {ls : List Bytes} {p q : Bytes}, (∀ l ∈ ls, IsLine l) →
    ls.flatten = p ++ [10] ++ q → ∃ ls₁ l ls₂, ls = ls₁ ++ l :: ls₂ ∧ p ++ [10] = (ls₁ ++ [l]).flatten
  | [], p, q, _, h => by simp at h
  | l :: ls, p, q, hl, h => by
    obtain ⟨t, rfl, h10, -⟩ := hl l (by simp)
    rw [List.flatten_cons] at h
    by_cases hlen : p.length ≤ t.length
    · -- the LF read is the one of the first line
      refine ⟨[], t ++ [10], ls, rfl, ?_⟩
      have hpt : p ++ 10 :: q = t ++ 10 :: ls.flatten := by simpa using h.symm
      have heq : p = t := by
        rcases List.append_eq_append_iff.1 hpt with ⟨a, rfl, ha⟩ | ⟨a, rfl, ha⟩
        · cases a with
          | nil => simp
          | cons b a =>
            obtain rfl : 10 = b := by simp at ha; exact ha.1
            exact absurd (by simp) h10
        · rw [List.length_append] at hlen
          have hnil : a = [] := List.eq_nil_of_length_eq_zero (by omega)
          simp [hnil]
      simp [heq]
    · -- the first line has been read: go on behind it
      have hpre : t ++ [10] <+: p := by
        refine List.prefix_of_prefix_length_le ⟨ls.flatten, h⟩ ⟨[10] ++ q, by simp⟩ ?_
        simp; omega
      obtain ⟨p, rfl⟩ := hpre
      have hls : ∀ x ∈ ls, IsLine x := fun x hx => hl x (List.mem_cons_of_mem _ hx)
      have hflat : ls.flatten = p ++ [10] ++ q := by simpa using h
      obtain ⟨ls₁, l, ls₂, rfl, hp⟩ := take_lines hls hflat
      exact ⟨(t ++ [10]) :: ls₁, l, ls₂, rfl, by simpa using hp⟩

/-! ## What a read is judged by -/

/-- A read of whole lines is judged by the last of them. -/
theorem responseStart_lines {ls : List Bytes} {l : Bytes} (hls : ∀ l ∈ ls, IsLine l)
    (hl : IsLine l) (hlen : (ls ++ [l]).flatten.length ≤ 1023) :
    responseStart (ls ++ [l]).flatten = ls.flatten.length := by
  obtain ⟨t, rfl, h10, h0⟩ := hl
  have hflat : (ls ++ [t ++ [10]]).flatten = ls.flatten ++ t ++ [10] := by simp
  rw [hflat] at hlen ⊢
  obtain ⟨k, hk⟩ : ∃ k, 1024 - (ls.flatten ++ t ++ [10]).length = k := ⟨_, rfl⟩
  have hset : (replyBuf (ls.flatten ++ t ++ [10])).set ((ls.flatten ++ t ++ [10]).length - 1) 0 =
      ls.flatten ++ t ++ 0 :: List.replicate k 0 := by
    rw [replyBuf_eq, hk]
    simp
  rw [responseStart, hset]
  rcases lines_end hls with hnil | ⟨a, ha⟩
  · rw [hnil, List.nil_append, strrchr_eq_none h0 h10]
    rfl
  · have ha0 : NulFree a := (nulFree_append.1 (ha ▸ nulFree_flatten hls)).1
    have hcut : ls.flatten ++ t ++ 0 :: List.replicate k 0 = a ++ 10 :: t ++ 0 :: List.replicate k 0 := by
      simp [ha]
    rw [hcut, strrchr_eq_some ha0 (by decide) h0 h10, ha]
    simp

/-- **A read of whole lines**: its reply line is the last of them. -/
theorem replyOf_lines {ls : List Bytes} {l : Bytes} (hls : ∀ l ∈ ls, IsLine l) (hl : IsLine l)
    (h4 : 4 ≤ (ls ++ [l]).flatten.length) (hlen : (ls ++ [l]).flatten.length ≤ 1023) :
    replyOf (ls ++ [l]).flatten = some l := by
  have hstart := responseStart_lines hls hl hlen
  have hflat : (ls ++ [l]).flatten = ls.flatten ++ l := by simp
  obtain ⟨t, rfl, h10, h0⟩ := hl
  obtain ⟨k, hk⟩ : ∃ k, 1024 - (ls ++ [t ++ [10]]).flatten.length = k + 1 :=
    ⟨1023 - (ls ++ [t ++ [10]]).flatten.length, by omega⟩
  have hbuf : replyBuf (ls ++ [t ++ [10]]).flatten =
      ls.flatten ++ (t ++ [10] ++ 0 :: List.replicate k 0) := by
    rw [replyBuf_eq, hk, hflat]
    simp [List.replicate_succ]
  have hend : (replyBuf (ls ++ [t ++ [10]]).flatten).getD ((ls ++ [t ++ [10]]).flatten.length - 1) 0 =
      10 := by
    rw [hbuf, hflat]
    simp
  have hresp : (replyBuf (ls ++ [t ++ [10]]).flatten).drop
      (responseStart (ls ++ [t ++ [10]]).flatten) = t ++ [10] ++ 0 :: List.replicate k 0 := by
    rw [hstart, hbuf, List.drop_left]
  rw [replyOf, if_neg (by rw [hend]; exact fun h => h.elim (by omega) fun h => h rfl), hresp,
    cstr_append_zero (h0.append (by decide))]

/-- A read of one line. -/
theorem replyOf_line {l : Bytes} (hl : IsLine l) (h4 : 4 ≤ l.length) (hlen : l.length ≤ 1023) :
    replyOf l = some l := by
  have hflat : ([] ++ [l] : List Bytes).flatten = l := by simp
  have hnil : ∀ l ∈ ([] : List Bytes), IsLine l := by simp
  have hreply := replyOf_lines hnil hl (by rw [hflat]; exact h4) (by rw [hflat]; exact hlen)
  rwa [hflat] at hreply

/-- A read that is no list of whole lines is refused. -/
theorem expectData_invalid {bs : Bytes} (hne : bs ≠ [])
    (h : bs.length < 4 ∨ ¬ ∃ p, bs = p ++ [10]) (code : Bytes) (w : Session) :
    expectData code bs w = Cmd.fail (bytes "500 smtp server error, invalid response\r\n") w := by
  have hpos := List.length_pos_iff.2 hne
  rw [expectData, if_neg (by omega)]
  by_cases h4 : bs.length < 4
  · rw [if_pos h4]
  · rw [if_neg h4, if_pos]
    obtain ⟨p, b, rfl⟩ := List.eq_nil_or_concat bs |>.resolve_left hne
    rw [replyBuf_eq]
    intro hb
    refine (h.resolve_left h4) ⟨p, ?_⟩
    simp only [List.concat_eq_append] at hb ⊢
    simpa using hb

/-! ## Well-formed replies -/

/-- Three digits. -/
abbrev Code := { c : Bytes // c.length = 3 ∧ ∀ b ∈ c, 48 ≤ b ∧ b ≤ 57 }

/-- The text of a reply line. -/
abbrev Text := { t : Bytes // ∀ b ∈ t, b ≠ 0 ∧ b ≠ 10 ∧ b ≠ 13 }

theorem isCode {c : Bytes} (h : c.length = 3 ∧ c.all fun b => 48 ≤ b ∧ b ≤ 57) :
    c.length = 3 ∧ ∀ b ∈ c, 48 ≤ b ∧ b ≤ 57 := ⟨h.1, by simpa using h.2⟩

theorem isText {t : Bytes} (h : t.all fun b => b ≠ 0 ∧ b ≠ 10 ∧ b ≠ 13) :
    ∀ b ∈ t, b ≠ 0 ∧ b ≠ 10 ∧ b ≠ 13 := by simpa using h

/-- `ddd-text CRLF`, or `ddd text CRLF`: `sep` is `-` or a blank. -/
def replyLine (code : Code) (sep : UInt8) (text : Text) : Bytes := code.1 ++ sep :: text.1 ++ crlf

def replyLines (code : Code) (more : List Text) (last : Text) : List Bytes :=
  more.map (replyLine code 45) ++ [replyLine code 32 last]

/-- A reply of an SMTP server: continuation lines and a final line. -/
structure Reply where
  code : Code
  more : List Text
  last : Text
  size : (replyLines code more last).flatten.length ≤ 1023

namespace Reply
variable (R : Reply)

def bytes : Bytes := (replyLines R.code R.more R.last).flatten

/-- The final line. -/
def final : Bytes := replyLine R.code 32 R.last

end Reply

theorem Code.nulFree (c : Code) : NulFree c.1 := by
  intro h
  exact absurd (c.2.2 0 h).1 (by decide)

theorem isLine_replyLine (code : Code) {sep : UInt8} (hs : sep ≠ 0 ∧ sep ≠ 10) (text : Text) :
    IsLine (replyLine code sep text) := by
  have h10 : (10 : UInt8) ∉ code.1 := by
    intro h
    exact absurd (code.2.2 10 h).1 (by decide)
  have ht10 : (10 : UInt8) ∉ text.1 := fun h => (text.2 10 h).2.1 rfl
  have ht0 : (0 : UInt8) ∉ text.1 := fun h => (text.2 0 h).1 rfl
  have hc0 := code.nulFree
  refine ⟨code.1 ++ sep :: text.1 ++ [13], by simp [replyLine, crlf], ?_, ?_⟩
  · simp [h10, ht10, hs.2.symm]
  · simp only [NulFree] at hc0 ⊢
    simp [hc0, ht0, hs.1.symm]

theorem isLine_more (R : Reply) : ∀ l ∈ R.more.map (replyLine R.code 45), IsLine l := by
  intro l hl
  obtain ⟨t, -, rfl⟩ := List.mem_map.1 hl
  exact isLine_replyLine _ (by decide) t

theorem isLine_final (R : Reply) : IsLine R.final := isLine_replyLine _ (by decide) _

theorem Reply.isLine (R : Reply) : ∀ l ∈ replyLines R.code R.more R.last, IsLine l := by
  intro l hl
  rcases List.mem_append.1 hl with hl | hl
  · exact isLine_more R l hl
  · rw [List.mem_singleton.1 hl]; exact isLine_final R

theorem replyLine_length (code : Code) (sep : UInt8) (text : Text) :
    (replyLine code sep text).length = text.1.length + 6 := by
  simp [replyLine, crlf, code.2.1]
  omega

theorem Reply.four_le (R : Reply) : 4 ≤ R.bytes.length := by
  have := replyLine_length R.code 32 R.last
  simp only [Reply.bytes, replyLines, List.flatten_append, List.flatten_singleton,
    List.length_append]
  omega

/-- A line of a reply has the code of the reply. -/
theorem strncmp_replyLine (code c : Code) {sep : UInt8} (hs : sep ≠ 0 ∧ sep ≠ 10) (text : Text) :
    strncmp code.1 (replyLine c sep text) 3 = true ↔ c = code := by
  have htake : (replyLine c sep text).take 3 = c.1 := by
    rw [replyLine, List.append_assoc, List.take_left' c.2.1]
  rw [strncmp_iff, cstr_of_nulFree code.nulFree, cstr_of_nulFree (isLine_replyLine c hs text).nulFree,
    htake, List.take_of_length_le (by rw [code.2.1])]
  exact ⟨fun h => Subtype.ext h.symm, fun h => by rw [h]⟩

/-- The reply line of a reply is its final line. -/
theorem replyOf_reply (R : Reply) : replyOf R.bytes = some R.final :=
  replyOf_lines (isLine_more R) (isLine_final R) R.four_le R.size

/-- **A reply read whole**: the result is whether it has the expected code, and
    the error text is its final line. -/
theorem expectData_reply (R : Reply) (code : Code) (w : Session) :
    ∃ b err, (b = true ↔ R.code = code) ∧ cstr err = R.final ∧
      expectData code.1 R.bytes w = (b, { w with err := err }) := by
  obtain ⟨err, herr, h⟩ := expectData_some (replyOf_reply R) R.size code.1 w
  exact ⟨_, err, strncmp_replyLine code R.code (by decide) R.last, herr, h⟩

/-- Only the final line of a reply has a blank behind the code. -/
theorem Reply.ne_final (R : Reply) {ls₁ ls₂ : List Bytes} {l : Bytes}
    (h : replyLines R.code R.more R.last = ls₁ ++ l :: ls₂) (hne : ls₂ ≠ []) : l ≠ R.final := by
  obtain ⟨ls, x, rfl⟩ := (List.eq_nil_or_concat ls₂).resolve_left hne
  have hmore : R.more.map (replyLine R.code 45) = ls₁ ++ l :: ls := by
    have h' : R.more.map (replyLine R.code 45) ++ [replyLine R.code 32 R.last] =
        (ls₁ ++ l :: ls) ++ [x] := by simpa [replyLines] using h
    exact (List.append_inj' h' rfl).1
  have hl : l ∈ R.more.map (replyLine R.code 45) := by simp [hmore]
  obtain ⟨t, -, rfl⟩ := List.mem_map.1 hl
  intro heq
  have hsep : (45 : UInt8) :: t.1 ++ crlf = 32 :: R.last.1 ++ crlf := by
    simp only [replyLine, Reply.final, List.append_assoc] at heq
    exact List.append_cancel_left heq
  simp at hsep

/-- What the proxy says of a read that it cannot use. -/
def invalidResponse : Bytes := bytes "500 smtp server error, invalid response\r\n"

/-- **A reply read in part** leaves another error text than its final line,
    unless that line is the proxy's own text. -/
theorem expectData_part (R : Reply) {bs rest : Bytes} (hR : R.bytes = bs ++ rest) (hne : bs ≠ [])
    (hrest : rest ≠ []) (code : Bytes) (w : Session) :
    cstr (expectData code bs w).2.err = R.final → R.final = invalidResponse := by
  intro herr
  have hlen : bs.length ≤ 1023 := by
    have := congrArg List.length hR
    have := R.size
    simp only [Reply.bytes, List.length_append] at *
    omega
  by_cases hline : 4 ≤ bs.length ∧ ∃ p, bs = p ++ [10]
  · -- the read ends with a continuation line
    obtain ⟨h4, p, rfl⟩ := hline
    obtain ⟨ls₁, l, ls₂, hls, hp⟩ := take_lines R.isLine hR
    rw [hp] at h4 hlen herr
    have hall : ∀ x ∈ ls₁ ++ l :: ls₂, IsLine x := hls ▸ R.isLine
    have hline := replyOf_lines (fun x hx => hall x (by simp [hx])) (hall l (by simp)) h4 hlen
    obtain ⟨err, hl, h⟩ := expectData_some hline hlen code w
    rw [h, hl] at herr
    have hls₂ : ls₂ ≠ [] := by
      rintro rfl
      have hflat : R.bytes = (ls₁ ++ [l]).flatten ++ [] := by
        rw [Reply.bytes, hls, List.append_nil]
      rw [hR, hp] at hflat
      exact hrest (List.append_cancel_left hflat)
    exact absurd herr (R.ne_final hls hls₂)
  · have hbad : bs.length < 4 ∨ ¬ ∃ p, bs = p ++ [10] := by
      by_contra h
      simp only [not_or, not_lt, not_not] at h
      exact hline h
    rw [expectData_invalid hne hbad] at herr
    rw [← herr, Cmd.fail_err (by decide)]
    rfl

/-! ## Commands and their replies -/

/-- A command with what the network does for it. -/
structure Exchange where
  tls : Bool  -- `smtpSSLConnect` comes first
  cmd : Option Bytes  -- nothing is written before the greeting
  code : Code
  reply : Reply
  read : Chunk

/-- The calls of an exchange. -/
def Exchange.run (x : Exchange) : Cmd :=
  (if x.tls then smtpSSLConnect else .ok).and <|
  (match x.cmd with | some data => smtpWrite data | none => .ok).and (smtpExpect x.code.1)

/-- A session in which the writes and handshakes of the exchanges succeed. -/
def session (xs : List Exchange) (w : Session) : Session :=
  { w with
    sends := xs.flatMap fun x => x.cmd.toList.map fun _ => .all
    recvs := xs.map fun x => .data x.read
    hands := xs.flatMap fun x => if x.tls then [true] else [] }

/-- One command after the other, whatever their results: what each returns, and
    the error text after it. -/
def converse : List Exchange → Session → List (Bool × Bytes)
  | [], _ => []
  | x :: xs, w => ((x.run w).1, cstr (x.run w).2.err) :: converse xs (x.run w).2

/-- The reads are what the server sent, cut anyhow: of the bytes not yet read,
    which the next reply is appended to before its read, a read returns at
    least one. -/
def Delivers : Bytes → List Exchange → Prop
  | _, [] => True
  | unread, x :: xs =>
    x.read.1 ≠ [] ∧ ∃ rest, unread ++ x.reply.bytes = x.read.1 ++ rest ∧ Delivers rest xs

/-- Each reply arrives in one piece. -/
def Whole (xs : List Exchange) : Prop := ∀ x ∈ xs, x.read.1 = x.reply.bytes

/-- The result and the error text are those of the reply. -/
def Matches (x : Exchange) (r : Bool × Bytes) : Prop :=
  (r.1 = true ↔ x.reply.code = x.code) ∧ r.2 = x.reply.final

/-- All commands can be written on a connection that has, or has not, its TLS
    session: `SSL_write` takes no text without a positive `len`. -/
def Writable : Bool → List Exchange → Prop
  | _, [] => True
  | tls, x :: xs => (∀ data ∈ x.cmd, Send.all.passes (tls || x.tls) (lenOf data) = true) ∧
      Writable (tls || x.tls) xs

/-- An exchange is its read, judged. -/
theorem Exchange.run_session {x : Exchange} {w : Session}
    (hx : ∀ data ∈ x.cmd, Send.all.passes (w.ssl || x.tls) (lenOf data) = true) (xs : List Exchange) :
    ∃ w', w'.ssl = (w.ssl || x.tls) ∧
      x.run (session (x :: xs) w) = ((expectData x.code.1 x.read.1 (session xs w')).1,
        (expectData x.code.1 x.read.1 (session xs w')).2.note
          (.expected x.code.1 (expectData x.code.1 x.read.1 (session xs w')).1)) := by
  obtain ⟨tls, cmd, code, reply, read⟩ := x
  have hexpect : ∀ w' : Session,
      smtpExpect code.1 { session xs w' with recvs := .data read :: xs.map fun x => .data x.read } =
      ((expectData code.1 read.1 (session xs w')).1, (expectData code.1 read.1 (session xs w')).2.note
        (.expected code.1 (expectData code.1 read.1 (session xs w')).1)) := fun w' => rfl
  -- the command, on a session that is as far
  have command : ∀ w₁ : Session, w₁.ssl = (w.ssl || tls) → ∃ w', w'.ssl = (w.ssl || tls) ∧
      ((match cmd with | some data => smtpWrite data | none => .ok).and (smtpExpect code.1))
        { w₁ with
          sends := (cmd.toList.map fun _ => Send.all) ++ (session xs w₁).sends
          recvs := Recv.data read :: xs.map fun y : Exchange => Recv.data y.read
          hands := (session xs w₁).hands } =
        ((expectData code.1 read.1 (session xs w')).1, (expectData code.1 read.1 (session xs w')).2.note
          (.expected code.1 (expectData code.1 read.1 (session xs w')).1)) := by
    intro w₁ hw₁
    cases cmd with
    | none => exact ⟨w₁, hw₁, hexpect w₁⟩
    | some data =>
      have hpass : Send.all.passes w₁.ssl (lenOf data) = true := hw₁ ▸ hx data rfl
      refine ⟨w₁.note (.wrote w₁.ssl (sent w₁.ssl data .all) true), hw₁, ?_⟩
      have hrun : ∀ w₂ : Session, w₂.sends = .all :: (session xs w₁).sends → w₂.ssl = w₁.ssl →
          (smtpWrite data).and (smtpExpect code.1) w₂ = smtpExpect code.1
            ({ w₂ with sends := (session xs w₁).sends }.note (.wrote w₂.ssl (sent w₂.ssl data .all) true)) := by
        intro w₂ hsends hssl
        rw [Cmd.and, smtpWrite_passes hsends (hssl ▸ hpass)]
      exact (hrun { session xs w₁ with
          sends := .all :: (session xs w₁).sends
          recvs := .data read :: xs.map fun y => .data y.read } rfl rfl).trans
        (hexpect (w₁.note (.wrote w₁.ssl (sent w₁.ssl data .all) true)))
  cases tls with
  | false => exact command w (Bool.or_false _).symm
  | true => exact command { w with ssl := true } (Bool.or_true _).symm

theorem converse_cons {x : Exchange} {xs : List Exchange} {w : Session} (hw : Writable w.ssl (x :: xs)) :
    ∃ w₁ w₂, Writable w₂.ssl xs ∧ converse (x :: xs) (session (x :: xs) w) =
      ((expectData x.code.1 x.read.1 w₁).1, cstr (expectData x.code.1 x.read.1 w₁).2.err) ::
        converse xs (session xs w₂) := by
  obtain ⟨w', hssl, h⟩ := Exchange.run_session hw.1 xs
  obtain ⟨b, err, hd⟩ := expectData_frame x.code.1 x.read.1 (session xs w')
  refine ⟨session xs w', { w' with err := err }.note (.expected x.code.1 b), ?_, ?_⟩
  · have hrest := hw.2
    rw [← hssl] at hrest
    exact hrest
  · rw [converse, h, hd]
    rfl

/-- Each command consumes exactly its own reply, returns whether that has the
    expected code and leaves its final line as the error text, iff each reply is
    read in one piece. -/
theorem paired_iff {xs : List Exchange} {w : Session} (hw : Writable w.ssl xs) :
    List.Forall₂ (fun x r => x.read.1 = x.reply.bytes ∧ Matches x r) xs
      (converse xs (session xs w)) ↔ Whole xs := by
  induction xs generalizing w with
  | nil => simp [Whole, converse]
  | cons x xs ih =>
    obtain ⟨w₁, w₂, hw₂, hc⟩ := converse_cons hw
    simp only [hc, List.forall₂_cons, ih hw₂, Whole, List.forall_mem_cons]
    refine and_congr_left fun _ => ⟨And.left, fun hw => ⟨hw, ?_⟩⟩
    obtain ⟨b, err, hb, herr, hd⟩ := expectData_reply x.reply x.code w₁
    rw [Matches, hw, hd]
    exact ⟨hb, herr⟩

/-- The results and the error texts are those of the replies iff each reply is
    read in one piece, for replies that are not the proxy's own text. -/
theorem observed_iff {xs : List Exchange} {w : Session} (h : Delivers [] xs) (hw : Writable w.ssl xs)
    (hown : ∀ x ∈ xs, x.reply.final ≠ invalidResponse) :
    List.Forall₂ Matches xs (converse xs (session xs w)) ↔ Whole xs := by
  induction xs generalizing w with
  | nil => simp [Whole, converse]
  | cons x xs ih =>
    obtain ⟨hne, rest, hR, hrest⟩ := h
    obtain ⟨w₁, w₂, hw₂, hc⟩ := converse_cons hw
    simp only [hc, List.forall₂_cons, Whole, List.forall_mem_cons]
    rw [List.nil_append] at hR
    constructor
    · rintro ⟨hx, hxs⟩
      have hnil : rest = [] := by
        by_contra hr
        exact hown x (by simp) (expectData_part x.reply hR hne hr x.code.1 w₁ hx.2)
      subst hnil
      refine ⟨by simpa using hR.symm, ?_⟩
      exact (ih hrest hw₂ fun y hy => hown y (List.mem_cons_of_mem _ hy)).1 hxs
    · rintro ⟨hx, hxs⟩
      have hnil : rest = [] := List.append_cancel_left (hR.symm.trans (by rw [hx, List.append_nil]))
      subst hnil
      refine ⟨?_, (ih hrest hw₂ fun y hy => hown y (List.mem_cons_of_mem _ hy)).2 hxs⟩
      obtain ⟨b, err, hb, herr, hd⟩ := expectData_reply x.reply x.code w₁
      rw [Matches, hx, hd]
      exact ⟨hb, herr⟩

/-- Reads of one line are judged line by line, whatever the replies. -/
theorem converse_lines {xs : List Exchange} {w : Session} (hw : Writable w.ssl xs)
    (h : ∀ x ∈ xs, IsLine x.read.1 ∧ 4 ≤ x.read.1.length) : converse xs (session xs w) =
      xs.map fun x => (strncmp x.code.1 x.read.1 3, x.read.1) := by
  induction xs generalizing w with
  | nil => rfl
  | cons x xs ih =>
    obtain ⟨hl, h4⟩ := h x (by simp)
    obtain ⟨w₁, w₂, hw₂, hc⟩ := converse_cons hw
    obtain ⟨err, herr, hd⟩ := expectData_some (replyOf_line hl h4 x.read.2) x.read.2 x.code.1 w₁
    rw [hc, hd, ih hw₂ fun y hy => h y (List.mem_cons_of_mem _ hy)]
    simp [herr]

/-- **Pairing.**  For all commands that are written and their replies, and all reads
    that deliver the replies: each command consumes exactly its own reply and judges it by its
    code and final line, iff no reply is split; and where no reply is the
    proxy's own text, a split shows in a result or an error text. -/
theorem replies_paired_iff {xs : List Exchange} {w : Session} (h : Delivers [] xs)
    (hw : Writable w.ssl xs) :
    (List.Forall₂ (fun x r => x.read.1 = x.reply.bytes ∧ Matches x r) xs
      (converse xs (session xs w)) ↔ Whole xs) ∧
    ((∀ x ∈ xs, x.reply.final ≠ invalidResponse) →
      (List.Forall₂ Matches xs (converse xs (session xs w)) ↔ Whole xs)) :=
  ⟨paired_iff hw, fun hown => observed_iff h hw hown⟩

/-! ## A greeting of two lines -/

/-- A connection before its first command. -/
def fresh : Session := ⟨false, [], [], [], [], []⟩

def code220 : Code := ⟨bytes "220", isCode ⟨rfl, rfl⟩⟩

def code250 : Code := ⟨bytes "250", isCode ⟨rfl, rfl⟩⟩

def code251 : Code := ⟨bytes "251", isCode ⟨rfl, rfl⟩⟩

def code354 : Code := ⟨bytes "354", isCode ⟨rfl, rfl⟩⟩

def code550 : Code := ⟨bytes "550", isCode ⟨rfl, rfl⟩⟩

theorem text_a : ∀ b ∈ bytes "a", b ≠ 0 ∧ b ≠ 10 ∧ b ≠ 13 := isText rfl

/-- A reply of one line. -/
def lineReply (code : Code) : Reply :=
  ⟨code, [], ⟨bytes "a", text_a⟩, by simp [replyLines, replyLine_length]; decide⟩

/-- What is read from a server that gives these replies, each whole. -/
def lineReads (codes : List Code) : List Recv :=
  codes.map fun code => .data ⟨(lineReply code).bytes, (lineReply code).size⟩

/-- `220-a`, `220 b` -/
def greeting : Reply := ⟨code220, [⟨bytes "a", text_a⟩], ⟨bytes "b", isText rfl⟩, by decide⟩

/-- `250 c` -/
def ehloReply : Reply := ⟨code250, [], ⟨bytes "c", isText rfl⟩, by decide⟩

/-- The greeting, and `EHLO` with its reply, each read whole. -/
def inOrder : List Exchange :=
  [⟨false, none, code220, greeting, ⟨greeting.bytes, greeting.size⟩⟩,
    ⟨false, some (bytes "EHLO localhost\r\n"), code250, ehloReply, ⟨ehloReply.bytes, ehloReply.size⟩⟩]

/-- The same replies, the greeting read line by line. -/
def greetingSplit : List Exchange :=
  [⟨false, none, code220, greeting, ⟨bytes "220-a\r\n", by decide⟩⟩,
    ⟨false, some (bytes "EHLO localhost\r\n"), code250, ehloReply, ⟨bytes "220 b\r\n", by decide⟩⟩]

theorem replies_paired_iff_inOrder : Whole inOrder ∧
    List.Forall₂ Matches inOrder (converse inOrder (session inOrder fresh)) := by
  have hw : Whole inOrder := by
    intro x hx
    rcases List.mem_cons.1 hx with rfl | hx
    · rfl
    · rw [List.mem_singleton.1 hx]
  have hd : Delivers [] inOrder :=
    ⟨by decide, [], by rfl, by decide, [], by rfl, trivial⟩
  have hown : ∀ x ∈ inOrder, x.reply.final ≠ invalidResponse := by
    intro x hx
    rcases List.mem_cons.1 hx with rfl | hx
    · decide
    · rw [List.mem_singleton.1 hx]; decide
  have hwrite : Writable fresh.ssl inOrder := ⟨nofun, fun _ _ => rfl, trivial⟩
  exact ⟨hw, ((replies_paired_iff hd hwrite).2 hown).2 hw⟩

/-- **A split greeting.**  The second line of the greeting is taken for the
    reply to `EHLO`, which the server accepted. -/
theorem greeting_split : Delivers [] greetingSplit ∧
    converse greetingSplit (session greetingSplit fresh) =
      [(true, bytes "220-a\r\n"), (false, bytes "220 b\r\n")] ∧
    ¬ List.Forall₂ (fun x r => x.read.1 = x.reply.bytes ∧ Matches x r) greetingSplit
      (converse greetingSplit (session greetingSplit fresh)) := by
  have hd : Delivers [] greetingSplit :=
    ⟨by decide, bytes "220 b\r\n", by decide, by decide, bytes "250 c\r\n", by decide, trivial⟩
  have hlines : ∀ x ∈ greetingSplit, IsLine x.read.1 ∧ 4 ≤ x.read.1.length := by
    intro x hx
    rcases List.mem_cons.1 hx with rfl | hx
    · exact ⟨⟨bytes "220-a\r", by decide⟩, by decide⟩
    · rw [List.mem_singleton.1 hx]
      exact ⟨⟨bytes "220 b\r", by decide⟩, by decide⟩
  have hwrite : Writable fresh.ssl greetingSplit := ⟨nofun, fun _ _ => rfl, trivial⟩
  have hconv := (converse_lines hwrite hlines).trans
    (show _ = [(true, bytes "220-a\r\n"), (false, bytes "220 b\r\n")] by decide)
  refine ⟨hd, hconv, ?_⟩
  intro h
  rw [hconv] at h
  cases h with
  | cons hx _ => exact absurd hx.1 (by decide)

end SmtpProxy
