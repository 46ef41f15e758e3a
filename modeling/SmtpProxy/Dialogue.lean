/-
  What the commands of smtp.c are for: dialogues with a server.

  A dialogue is a list of steps (a command sent, a reply with one of some codes,
  a TLS handshake); `walk` follows it through what the network will do (`Net`)
  and says whether every step is accepted, or else who refused: the server, with
  the line it gave, or the proxy.

  `Implements f ts`: the command `f` of the source does what the dialogue `ts`
  says, in its result and its error text.  There is one rule for each of the
  calls, and `Implements.and` composes them.
-/
import SmtpProxy.Smtp

namespace SmtpProxy

open CString

/-- What the network will do. -/
structure Net where
  ssl : Bool
  sends : List Send
  recvs : List Recv
  hands : List Bool
  deriving DecidableEq

def Session.net (w : Session) : Net := ⟨w.ssl, w.sends, w.recvs, w.hands⟩

inductive Step where
  | connect  -- a new connection, without TLS
  | hand  -- a TLS handshake
  | write (data : Bytes)  -- a command, or the payload
  | expect (codes : List Bytes)  -- a reply with one of the codes
  | stop  -- the proxy gives up
  deriving DecidableEq

/-- Who does not go on with a dialogue. -/
inductive Refusal where
  | server (line : Bytes)
  | proxy
  deriving DecidableEq

/-- The reply line in the bytes of a read. -/
def replyOf (bs : Bytes) : Option Bytes :=
  if bs.length < 4 ∨ (replyBuf bs).getD (bs.length - 1) 0 ≠ 10 then none
  else some (cstr ((replyBuf bs).drop (responseStart bs)))

/-- The next reply line. -/
def Net.reply (n : Net) : Option (Bytes × Net) :=
  match n.recvs with
  | .data bs :: rs => (replyOf bs.1).map fun line => (line, { n with recvs := rs })
  | _ => none

def Step.walk : Step → Net → Except Refusal Net
  | .connect, n => .ok { n with ssl := false }
  | .hand, n =>
    match n.hands with
    | true :: hs => .ok { n with ssl := true, hands := hs }
    | _ => .error .proxy
  | .write data, n =>
    match n.sends with
    | x :: xs => if x.passes n.ssl (lenOf data) then .ok { n with sends := xs } else .error .proxy
    | [] => .error .proxy
  | .expect codes, n =>
    match n.reply with
    | some (line, n) => if codes.any fun c => strncmp c line 3 then .ok n else .error (.server line)
    | none => .error .proxy
  | .stop, _ => .error .proxy

/-- Follow a dialogue: the network after it, or the first refusal. -/
def walk : List Step → Net → Except Refusal Net
  | [], n => .ok n
  | t :: ts, n =>
    match t.walk n with
    | .ok n => walk ts n
    | .error r => .error r

theorem walk_append (ts us : List Step) (n : Net) :
    walk (ts ++ us) n = match walk ts n with
      | .ok n => walk us n
      | .error r => .error r := by
  induction ts generalizing n with
  | nil => rfl
  | cons t ts ih =>
    rw [List.cons_append, walk, walk]
    cases t.walk n with
    | ok n => exact ih n
    | error r => rfl

/-! ## Commands that implement a dialogue -/

/-- An error text of the proxy. -/
def Own (err : Bytes) : Prop := bytes "500" <+: err

/-- What a command leaves agrees with the outcome of a dialogue. -/
def Meets : Except Refusal Net → Bool × Session → Prop
  | .ok n, r => r.1 = true ∧ r.2.net = n
  | .error (.server line), r => r.1 = false ∧ cstr r.2.err = line
  | .error .proxy, r => r.1 = false ∧ Own (cstr r.2.err)

def Implements (f : Cmd) (ts : List Step) : Prop := ∀ w, Meets (walk ts w.net) (f w)

theorem implements_ok : Implements .ok [] := fun _ => ⟨rfl, rfl⟩

/-- **Composition.** -/
theorem Implements.and {f g : Cmd} {ts us : List Step} (hf : Implements f ts)
    (hg : Implements g us) : Implements (f.and g) (ts ++ us) := by
  intro w
  have h := hf w
  rw [walk_append]
  unfold Cmd.and
  rcases hfw : f w with ⟨b, w'⟩
  rw [hfw] at h
  cases hw : walk ts w.net with
  | ok n =>
    rw [hw] at h
    obtain ⟨rfl, rfl⟩ := h
    exact hg w'
  | error r =>
    rw [hw] at h
    cases r with
    | server line => obtain ⟨rfl, hl⟩ := h; exact ⟨rfl, hl⟩
    | proxy => obtain ⟨rfl, hl⟩ := h; exact ⟨rfl, hl⟩

theorem Implements.ite {f g : Cmd} {ts us : List Step} (b : Bool) (hf : Implements f ts)
    (hg : Implements g us) : Implements (if b then f else g) (if b then ts else us) := by
  cases b
  · exact hg
  · exact hf

theorem own_snprintf {text : Bytes} (h0 : NulFree text) (h : bytes "500" <+: text) (err : Bytes) :
    Own (cstr (snprintf err errlen text)) := by
  rw [Own, cstr_snprintf h0]
  exact List.prefix_take_iff.2 ⟨h, by decide⟩

/-- The texts of the source that are error texts of the proxy. -/
def ownText (text : Bytes) : Bool := (bytes "500").isPrefixOf text && !text.contains 0

theorem own_text {text : Bytes} (h : ownText text) (err : Bytes) :
    Own (cstr (snprintf err errlen text)) := by
  obtain ⟨h500, h0⟩ := Bool.and_eq_true_iff.1 h
  exact own_snprintf (by simpa [NulFree] using h0) (List.isPrefixOf_iff_prefix.1 h500) err

/-- One of two texts, as for plain connections and TLS. -/
theorem own_either {a b : String} (c : Prop) [Decidable c] (ha : ownText (bytes a))
    (hb : ownText (bytes b)) (err : Bytes) :
    Own (cstr (snprintf err errlen (bytes (if c then a else b)))) := by
  split_ifs
  · exact own_text ha err
  · exact own_text hb err

theorem implements_fail {text : Bytes} (h : ownText text) : Implements (.fail text) [.stop] :=
  fun w => ⟨rfl, own_text h w.err⟩

theorem own_writeErrors : ∀ text ∈ writeErrors, ownText text := by decide

theorem implements_write (data : Bytes) : Implements (smtpWrite data) [.write (cstr data)] := by
  intro w
  obtain ⟨text, htext, hw⟩ := smtpWrite_eq data w
  have hown : ∀ w', Own (cstr (Cmd.fail text w').2.err) :=
    fun w' => own_text (own_writeErrors text htext) w'.err
  rw [hw]
  simp only [walk, Step.walk, lenOf_cstr, Session.net]
  unfold Session.nextSend
  cases w.sends with
  | nil => exact ⟨rfl, hown _⟩
  | cons x xs =>
    dsimp only
    cases x.passes w.ssl (lenOf data) with
    | false => exact ⟨rfl, hown _⟩
    | true => exact ⟨rfl, rfl⟩

theorem implements_hand : Implements smtpSSLConnect [.hand] := by
  intro w
  obtain ⟨ssl, sends, recvs, hands, err, log⟩ := w
  rcases hands with _ | ⟨_ | _, hs⟩
  · exact ⟨rfl, own_text rfl _⟩
  · exact ⟨rfl, own_text rfl _⟩
  · exact ⟨rfl, rfl⟩

/-! ## Replies -/

/-- The line copied to the error text fits. -/
theorem response_fits {bs : Bytes} (h : bs.length ≤ 1023) (k : ℕ) :
    (cstr ((replyBuf bs).drop k)).length < errlen := by
  have hlen : (replyBuf bs).length = 1024 := by
    rw [replyBuf_eq, List.length_append, List.length_replicate]
    omega
  unfold errlen
  by_cases hk : k < 1024
  · have h0 : (0 : UInt8) ∈ (replyBuf bs).drop k := by
      refine List.mem_iff_getElem.2 ⟨1023 - k, by rw [List.length_drop]; omega, ?_⟩
      simp only [List.getElem_drop, replyBuf_eq]
      rw [List.getElem_append_right (by omega), List.getElem_replicate]
    obtain ⟨r, hr⟩ := cstr_append_of_mem h0
    have := congrArg List.length hr
    rw [List.length_append, List.length_cons, List.length_drop] at this
    omega
  · rw [List.drop_of_length_le (by omega)]
    decide

theorem strncmp_cstr (a m : Bytes) (n : ℕ) : strncmp a (cstr m) n = strncmp a m n := by
  rw [strncmp, strncmp, cstr_of_nulFree (cstr_nulFree m)]

theorem expectData_some {bs line : Bytes} (h : replyOf bs = some line) (hlen : bs.length ≤ 1023)
    (code : Bytes) (w : Session) : ∃ err, cstr err = line ∧
      expectData code bs w = (strncmp code line 3, { w with err := err }) := by
  unfold replyOf at h
  split_ifs at h with hbad
  simp only [not_or, not_lt, not_not] at hbad
  obtain rfl := Option.some.inj h
  refine ⟨strncpy w.err ((replyBuf bs).drop (responseStart bs)) errlen, ?_, ?_⟩
  · exact cstr_strncpy _ (response_fits hlen _)
  · rw [expectData, if_neg (by omega), if_neg (by omega), if_neg (fun h => h hbad.2),
      strncmp_cstr]

theorem expectData_none {bs : Bytes} (h : replyOf bs = none) (code : Bytes) (w : Session) :
    (expectData code bs w).1 = false ∧ Own (cstr (expectData code bs w).2.err) := by
  unfold replyOf at h
  split_ifs at h with hbad
  unfold expectData
  split_ifs with h1 h2 h3
  · exact ⟨rfl, own_text rfl _⟩
  · exact ⟨rfl, own_text rfl _⟩
  · exact ⟨rfl, own_text rfl _⟩
  · exact absurd hbad (by simp only [not_or, not_lt, not_not] at *; exact ⟨h2, h3⟩)

/-- **One reply**: the result is whether it has the code, and the error text is
    its line. -/
theorem smtpExpect_reply (code : Bytes) (w : Session) :
    match w.net.reply with
    | some (line, n) => (smtpExpect code w).1 = strncmp code line 3 ∧
        cstr (smtpExpect code w).2.err = line ∧ (smtpExpect code w).2.net = n
    | none => (smtpExpect code w).1 = false ∧ Own (cstr (smtpExpect code w).2.err) := by
  obtain ⟨ssl, sends, recvs, hands, err, log⟩ := w
  cases recvs with
  | nil => exact ⟨rfl, own_text rfl _⟩
  | cons x rs =>
    cases x with
    | pollError => exact ⟨rfl, own_text rfl _⟩
    | noInput => exact ⟨rfl, own_text rfl _⟩
    | error => exact ⟨rfl, own_either _ rfl rfl _⟩
    | data bs =>
      rw [smtpExpect_data rfl]
      cases hr : replyOf bs.1 with
      | none =>
        simp only [Session.net, Net.reply, hr, Option.map_none]
        exact expectData_none hr code _
      | some line =>
        simp only [Session.net, Net.reply, hr, Option.map_some]
        obtain ⟨err', herr, hd⟩ := expectData_some hr bs.2 code ⟨ssl, sends, rs, hands, err, log⟩
        simp only [hd]
        exact ⟨trivial, herr, rfl⟩

/-- A reply with the code of the command. -/
theorem smtpExpect_true {code : Bytes} (h3 : code.length = 3) (h0 : NulFree code) {w : Session}
    (h : (smtpExpect code w).1 = true) : code <+: cstr (smtpExpect code w).2.err := by
  have hr := smtpExpect_reply code w
  cases hn : w.net.reply with
  | none => rw [hn] at hr; rw [hr.1] at h; cases h
  | some ln =>
    rw [hn] at hr
    rw [hr.1, ← hr.2.1, strncmp_iff_start h0 h3] at h
    rwa [cstr_of_nulFree (cstr_nulFree _)] at h

theorem implements_expect (code : Bytes) : Implements (smtpExpect code) [.expect [code]] := by
  intro w
  have hr := smtpExpect_reply code w
  cases hn : w.net.reply with
  | none =>
    rw [hn] at hr
    simp only [walk, Step.walk, hn]
    exact hr
  | some ln =>
    rw [hn] at hr
    obtain ⟨line, n⟩ := ln
    obtain ⟨hb, hl, hnet⟩ := hr
    simp only [walk, Step.walk, hn, List.any_cons, List.any_nil, Bool.or_false]
    cases hs : strncmp code line 3 with
    | true => exact ⟨hb.trans hs, hnet⟩
    | false => exact ⟨hb.trans hs, hl⟩

/-- The proxy's own texts have no other code. -/
theorem strncmp_own {code err : Bytes} (h : (cstr code).take 3 ≠ bytes "500")
    (herr : Own (cstr err)) : strncmp code err 3 = false := by
  rw [Bool.eq_false_iff, ne_eq, strncmp_iff]
  rw [Own, List.prefix_iff_eq_take] at herr
  rw [show (cstr err).take 3 = bytes "500" from herr.symm]
  exact h

/-- A second code is accepted as well. -/
theorem implements_expect_or {code code' : Bytes} (h : (cstr code').take 3 ≠ bytes "500") :
    Implements ((smtpExpect code).orCode code') [.expect [code, code']] := by
  intro w
  have hr := smtpExpect_reply code w
  unfold Cmd.orCode
  rcases hw : smtpExpect code w with ⟨b, w'⟩
  rw [hw] at hr
  cases hn : w.net.reply with
  | none =>
    rw [hn] at hr
    obtain ⟨rfl, hown⟩ := hr
    simp only [walk, Step.walk, hn]
    exact ⟨strncmp_own h hown, hown⟩
  | some ln =>
    rw [hn] at hr
    obtain ⟨line, n⟩ := ln
    have hl : cstr w'.err = line := hr.2.1
    obtain ⟨hb, -, hnet⟩ := hr
    subst hl
    dsimp only at hb hnet
    subst hb
    simp only [walk, Step.walk, hn, List.any_cons, List.any_nil, Bool.or_false, strncmp_cstr]
    cases strncmp code w'.err 3 with
    | true => exact ⟨rfl, hnet⟩
    | false =>
      show Meets _ (strncmp code' w'.err 3, w')
      rw [Bool.false_or]
      cases strncmp code' w'.err 3 with
      | true => exact ⟨rfl, hnet⟩
      | false => exact ⟨rfl, rfl⟩

/-- The second code is looked for after a failed write as well, in vain. -/
theorem orCode_and {code' data : Bytes} {f : Cmd} (h : (cstr code').take 3 ≠ bytes "500") :
    ((smtpWrite data).and f).orCode code' = (smtpWrite data).and (f.orCode code') := by
  ext1 w
  obtain ⟨text, htext, hw⟩ := smtpWrite_eq data w
  unfold Cmd.orCode Cmd.and
  rw [hw]
  cases w.nextSend.1.passes w.ssl (lenOf data) with
  | false =>
    have hown := own_text (own_writeErrors text htext)
    exact Prod.ext (strncmp_own h (hown _)) rfl
  | true => rfl

end SmtpProxy
