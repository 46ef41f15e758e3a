/-
  The line that a client gets for a message.

  `word` follows a dialogue and says what is in `res` after it: a text of the
  proxy, or the reply line of a read; `Tells`: a command of the source leaves
  just that.

  * `replyOf_isLine`: a reply line is a line iff there is no NUL in the read;
  * `unknown_isLine`: the same for the text about an unknown transport;
  * `reply_lines_iff`: between the last read of a message and the next read there
    is one write; and it is one line iff the message is `Answerable`.
-/
import SmtpProxy.Smuggling

namespace SmtpProxy

open CString Search

/-! ## What a dialogue leaves in the error text -/

inductive Word where
  | kept  -- what was there before
  | own  -- a text of the proxy
  | line (bs : Bytes)  -- the reply line of a read
  deriving DecidableEq

/-- The later one of two. -/
def Word.over : Word → Word → Word
  | a, .kept => a
  | _, b => b

@[simp] theorem Word.kept_over (x : Word) : Word.kept.over x = x := by cases x <;> rfl

@[simp] theorem Word.over_kept (x : Word) : x.over .kept = x := rfl

def Step.word : Step → Net → Word
  | .connect, _ => .kept
  | .hand, n =>
    match n.hands with
    | true :: _ => .kept
    | _ => .own
  | .write data, n =>
    match n.sends with
    | x :: _ => if x.passes n.ssl (lenOf data) then .kept else .own
    | [] => .own
  | .expect _, n =>
    match n.recvs with
    | .data bs :: _ => if (replyOf bs.1).isSome then .line bs.1 else .own
    | _ => .own
  | .stop, _ => .own

theorem Word.over_ne_kept {x y : Word} (h : y ≠ .kept) : x.over y ≠ .kept := by
  cases y with
  | kept => exact absurd rfl h
  | own | line bs => cases x <;> exact nofun

theorem Step.word_expect (codes : List Bytes) (n : Net) : (Step.expect codes).word n ≠ .kept := by
  simp only [Step.word]
  split
  · split <;> exact nofun
  · exact nofun

def word : List Step → Net → Word
  | [], _ => .kept
  | t :: ts, n =>
    match t.walk n with
    | .ok n' => (t.word n).over (word ts n')
    | .error _ => t.word n

theorem word_append (ts us : List Step) (n : Net) :
    word (ts ++ us) n = match walk ts n with
      | .ok n' => (word ts n).over (word us n')
      | .error _ => word ts n := by
  induction ts generalizing n with
  | nil => exact (Word.kept_over _).symm
  | cons t ts ih =>
    simp only [List.cons_append, word, walk]
    cases t.walk n with
    | error r => rfl
    | ok n' =>
      simp only [ih]
      cases walk ts n' with
      | error r => rfl
      | ok n₁ =>
        dsimp only
        cases word us n₁ <;> rfl

/-- What the word says of an error text, and of what it was before. -/
def Word.Says (err err' : Bytes) : Word → Prop
  | .kept => err' = err
  | .own => IsLine (cstr err')
  | .line bs => replyOf bs = some (cstr err')

def Tells (f : Cmd) (ts : List Step) : Prop := ∀ w, (word ts w.net).Says w.err (f w).2.err

/-- **Composition.** -/
theorem Tells.and {f g : Cmd} {ts us : List Step} (hi : Implements f ts) (hf : Tells f ts)
    (hg : Tells g us) : Tells (f.and g) (ts ++ us) := by
  intro w
  have him := hi w
  have hfw := hf w
  rw [word_append]
  unfold Cmd.and
  rcases hw : f w with ⟨b, w'⟩
  rw [hw] at him hfw
  cases hn : walk ts w.net with
  | error r =>
    rw [hn] at him
    obtain rfl : b = false := by
      cases r with
      | server line => exact him.1
      | proxy => exact him.1
    exact hfw
  | ok n =>
    rw [hn] at him
    obtain ⟨rfl, rfl⟩ := him
    have hgw := hg w'
    dsimp only
    cases hu : word us w'.net with
    | kept =>
      rw [hu] at hgw
      have hkept : (g w').2.err = w'.err := hgw
      rw [hkept]
      exact hfw
    | own =>
      rw [hu] at hgw
      exact hgw
    | line bs =>
      rw [hu] at hgw
      exact hgw

theorem isLine_text {text : Bytes} (h : lineText text) (err : Bytes) :
    IsLine (cstr (snprintf err errlen text)) := by
  simp only [lineText, Bool.and_eq_true, beq_iff_eq, Bool.not_eq_true', List.contains_eq_mem,
    decide_eq_false_iff_not, decide_eq_true_eq] at h
  obtain ⟨⟨⟨hlast, h10⟩, h0⟩, hlen⟩ := h
  have htext : text = text.dropLast ++ [10] := (List.dropLast_append_getLast? 10 hlast).symm
  rw [cstr_snprintf h0, List.take_of_length_le (by omega)]
  refine ⟨text.dropLast, htext, h10, ?_⟩
  rw [htext] at h0
  exact (nulFree_append.1 h0).1

/-- One of two texts, as for plain connections and TLS. -/
theorem isLine_either {a b : String} (c : Prop) [Decidable c] (ha : lineText (bytes a))
    (hb : lineText (bytes b)) (err : Bytes) :
    IsLine (cstr (snprintf err errlen (bytes (if c then a else b)))) := by
  split_ifs
  · exact isLine_text ha err
  · exact isLine_text hb err

theorem tells_ok : Tells .ok [] := fun _ => rfl

theorem tells_fail {text : Bytes} (h : lineText text) : Tells (.fail text) [.stop] :=
  fun w => isLine_text h w.err

theorem line_writeErrors : ∀ text ∈ writeErrors, lineText text := by decide

theorem tells_write (data : Bytes) : Tells (smtpWrite data) [.write (cstr data)] := by
  intro w
  obtain ⟨text, htext, hw⟩ := smtpWrite_eq data w
  have hword : word [.write (cstr data)] w.net = (Step.write (cstr data)).word w.net := by
    simp only [word]
    cases (Step.write (cstr data)).walk w.net with
    | ok n => exact Word.over_kept _
    | error r => rfl
  rw [hword, hw]
  have hstep : (Step.write (cstr data)).word w.net =
      if w.nextSend.1.passes w.ssl (lenOf data) then .kept else .own := by
    obtain ⟨ssl, _ | ⟨x, xs⟩, recvs, hands, err, log⟩ := w
    · rfl
    · show (if x.passes ssl (lenOf (cstr data)) then Word.kept else .own) = _
      rw [lenOf_cstr]
      rfl
  have herr : w.nextSend.2.err = w.err := by
    unfold Session.nextSend
    split
    · rfl
    · rfl
  rw [hstep]
  by_cases hx : w.nextSend.1.passes w.ssl (lenOf data) = true
  · rw [if_pos hx, if_pos hx]
    exact herr
  · rw [if_neg hx, if_neg hx]
    exact isLine_text (line_writeErrors text htext) _

theorem tells_hand : Tells smtpSSLConnect [.hand] := by
  intro w
  obtain ⟨ssl, sends, recvs, hands, err, log⟩ := w
  rcases hands with _ | ⟨_ | _, hs⟩
  · exact isLine_text rfl _
  · exact isLine_text rfl _
  · rfl

/-- A read that is not used leaves a text of the proxy. -/
theorem expectData_isLine {bs : Bytes} (h : replyOf bs = none) (code : Bytes) (w : Session) :
    IsLine (cstr (expectData code bs w).2.err) := by
  unfold replyOf at h
  split_ifs at h with hbad
  unfold expectData
  split_ifs with h1 h2 h3
  · exact isLine_text rfl _
  · exact isLine_text rfl _
  · exact isLine_text rfl _
  · exact absurd hbad (by simp only [not_or, not_lt, not_not] at *; exact ⟨h2, h3⟩)

/-- What a reply leaves, whatever codes are accepted. -/
theorem tells_reply (code : Bytes) (codes : List Bytes) :
    ∀ w, (word [.expect codes] w.net).Says w.err (smtpExpect code w).2.err := by
  intro w
  have hword : word [.expect codes] w.net = (Step.expect codes).word w.net := by
    simp only [word]
    cases (Step.expect codes).walk w.net with
    | ok n => rfl
    | error r => rfl
  rw [hword]
  obtain ⟨ssl, sends, recvs, hands, err, log⟩ := w
  rcases recvs with _ | ⟨_ | _ | _ | bs, rs⟩
  · exact isLine_text rfl _
  · exact isLine_text rfl _
  · exact isLine_text rfl _
  · exact isLine_either _ rfl rfl _
  · rw [smtpExpect_data rfl]
    simp only [Step.word, Session.net]
    cases hr : replyOf bs.1 with
    | none => exact expectData_isLine hr code _
    | some line =>
      obtain ⟨err', herr, hd⟩ := expectData_some hr bs.2 code ⟨ssl, sends, rs, hands, err, log⟩
      simp only [hd, Option.isSome_some, if_true, Word.Says]
      rw [hr, ← herr]
      rfl

/-! ## What `tpSendMail` leaves -/

theorem tells_op {o : Op} (h : o.Proper) : Tells o.cmd [o.step] := by
  cases o with
  | hand => exact tells_hand
  | write data => exact tells_write data
  | expect code => exact tells_reply code [code]
  | either code code' =>
    intro w
    rw [Op.cmd, Cmd.orCode_snd]
    exact tells_reply code [code, code'] w
  | fail text => exact tells_fail (Bool.and_eq_true_iff.1 h).2

theorem tells_runOps {os : List Op} (h : ∀ o ∈ os, o.Proper) : Tells (runOps os) (os.map Op.step) := by
  induction os with
  | nil => exact tells_ok
  | cons o os ih =>
    have ho := h o List.mem_cons_self
    have hos := ih fun o ho => h o (List.mem_cons_of_mem _ ho)
    exact Tells.and (implements_op ho) (tells_op ho) hos

theorem tells_newConn (tp : Tp) (connected : Bool) :
    Tells (newConn tp connected) ((GetConn.new connected).steps tp) := by
  cases connected with
  | false => exact tells_fail rfl
  | true =>
    intro w
    have h := tells_runOps (proper_setup tp) { w with ssl := false }
    rw [runOps_append, ← smtpEHLO_eq, ← smtpAuth_eq, steps_setup] at h
    have hword : word ((GetConn.new true).steps tp) w.net =
        word (setupSteps tp ++ authSteps tp) (Session.net { w with ssl := false }) := by
      exact Word.kept_over _
    rw [hword]
    exact h

/-- **What `tpSendMail` leaves in the error text.** -/
theorem tells_tpSendMail (tp : Tp) (toList : List Bytes) (data : Bytes) (how : GetConn) :
    Tells (tpSendMail tp toList data how) (how.steps tp ++ mailSteps tp toList data) := by
  have ht := tells_runOps (proper_mail tp toList data)
  rw [steps_mail, ← transaction_eq] at ht
  cases how with
  | busy => exact fun w => isLine_text rfl w.err
  | reused =>
    have hrset : ∀ o ∈ rsetOps, o.Proper := by
      intro o ho
      simp only [rsetOps, List.mem_cons, List.not_mem_nil, or_false] at ho
      rcases ho with rfl | rfl <;> rfl
    have hi : Implements smtpRSET (GetConn.reused.steps tp) :=
      (implements_write _).and (implements_expect_or (by decide))
    have h := tells_runOps hrset
    rw [← smtpRSET_eq] at h
    exact Tells.and hi h ht
  | new connected => exact Tells.and (implements_newConn tp connected) (tells_newConn tp connected) ht

/-! ## Reply lines -/

/-- The last line of a text. -/
theorem exists_lastLine (u : Bytes) : ∃ a b, u = a ++ b ∧ (10 : UInt8) ∉ b ∧
    (a = [] ∨ ∃ a', a = a' ++ [10]) := by
  induction u using List.reverseRecOn with
  | nil => exact ⟨[], [], rfl, List.not_mem_nil, Or.inl rfl⟩
  | append_singleton u c ih =>
    obtain ⟨a, b, rfl, hb, ha⟩ := ih
    by_cases hc : c = 10
    · subst hc
      exact ⟨a ++ b ++ [10], [], by simp, List.not_mem_nil, Or.inr ⟨a ++ b, rfl⟩⟩
    · exact ⟨a, b ++ [c], by simp, by simp [hb, Ne.symm hc], ha⟩

/-- A reply line starts behind the last LF of its string but the one at the end. -/
theorem responseStart_eq {bs u r : Bytes} (hu : NulFree u)
    (h : (replyBuf bs).set (bs.length - 1) 0 = u ++ 0 :: r) : ∃ a b, u = a ++ b ∧ (10 : UInt8) ∉ b ∧
      responseStart bs = a.length := by
  obtain ⟨a, b, rfl, hb, rfl | ⟨a, rfl⟩⟩ := exists_lastLine u
  · refine ⟨[], b, rfl, hb, ?_⟩
    rw [List.nil_append] at hu h
    rw [responseStart, h, strrchr_eq_none hu hb]
    rfl
  · obtain ⟨ha, hb0⟩ := nulFree_append.1 hu
    refine ⟨a ++ [10], b, rfl, hb, ?_⟩
    have hcut : a ++ [10] ++ b ++ 0 :: r = a ++ 10 :: b ++ 0 :: r := by simp
    rw [responseStart, h, hcut, strrchr_eq_some (nulFree_append.1 ha).1 (by decide) hb0 hb]
    simp

/-- **The reply line of a read is a line iff there is no NUL in the read.** -/
theorem replyOf_isLine {bs line : Bytes} (h : replyOf bs = some line) (hlen : bs.length ≤ 1023) :
    IsLine line ↔ NulFree bs := by
  unfold replyOf at h
  split_ifs at h with hbad
  simp only [not_or, not_lt, not_not] at hbad
  obtain rfl := Option.some.inj h
  obtain ⟨h4, hlast⟩ := hbad
  obtain ⟨k, hk⟩ : ∃ k, 1024 - bs.length = k + 1 := ⟨1023 - bs.length, by omega⟩
  have hbuf : replyBuf bs = bs ++ 0 :: List.replicate k 0 := by
    rw [replyBuf_eq, hk, List.replicate_succ]
  obtain ⟨p, c, rfl⟩ := List.eq_nil_or_concat bs |>.resolve_left (by rintro rfl; simp at h4)
  rw [List.concat_eq_append] at *
  obtain rfl : c = 10 := by
    rw [hbuf] at hlast
    simpa using hlast
  have hset : (replyBuf (p ++ [10])).set ((p ++ [10]).length - 1) 0 =
      p ++ 0 :: 0 :: List.replicate k 0 := by
    rw [hbuf]
    simp
  by_cases hp : NulFree p
  · obtain ⟨a, b, rfl, hb, hstart⟩ := responseStart_eq hp hset
    obtain ⟨-, hb0⟩ := nulFree_append.1 hp
    have hb10 : NulFree (b ++ [10]) := hb0.append (by decide)
    have hline : cstr ((replyBuf (a ++ b ++ [10])).drop (responseStart (a ++ b ++ [10]))) =
        b ++ [10] := by
      rw [hstart, hbuf, List.append_assoc, List.append_assoc, List.drop_left, ← List.append_assoc]
      exact cstr_append_zero hb10 _
    rw [hline]
    exact iff_of_true ⟨b, rfl, hb, hb0⟩ (hp.append (by decide))
  · -- the string ends at a NUL, and so does the line
    obtain ⟨v, hv⟩ := cstr_append_of_mem (Classical.not_not.1 hp)
    have hset' : (replyBuf (p ++ [10])).set ((p ++ [10]).length - 1) 0 =
        cstr p ++ 0 :: (v ++ 0 :: 0 :: List.replicate k 0) := by
      rw [hset]
      conv_lhs => rw [hv]
      simp
    obtain ⟨a, b, hab, hb, hstart⟩ := responseStart_eq (cstr_nulFree p) hset'
    have hb0 : NulFree b := (nulFree_append.1 (hab ▸ cstr_nulFree p)).2
    have hline : cstr ((replyBuf (p ++ [10])).drop (responseStart (p ++ [10]))) = b := by
      rw [hstart, hbuf, hv, hab]
      simp only [List.append_assoc, List.drop_left, List.cons_append]
      exact cstr_append_zero hb0 _
    rw [hline]
    refine iff_of_false ?_ fun h => hp (nulFree_append.1 h).1
    rintro ⟨t, rfl, -, -⟩
    exact hb (by simp)

/-! ## Unknown transports -/

/-- A text that is cut is a line iff it is cut behind its first LF, or not at all
    and there is no other. -/
theorem isLine_take {a c : Bytes} {n : ℕ} (h0 : NulFree (a ++ 10 :: c)) (ha : (10 : UInt8) ∉ a) :
    IsLine ((a ++ 10 :: c).take n) ↔ n = a.length + 1 ∨ c = [] ∧ a.length + 1 ≤ n := by
  rcases Nat.lt_or_ge a.length n with hlt | hge
  · obtain ⟨k, rfl⟩ := Nat.exists_eq_add_of_lt hlt
    have htake : (a ++ 10 :: c).take (a.length + k + 1) = a ++ 10 :: c.take k := by
      rw [Nat.add_assoc, List.take_length_add_append, List.take_succ_cons]
    have hshort : (a.length + k + 1 = a.length + 1 ∨ c = [] ∧ a.length + 1 ≤ a.length + k + 1) ↔
        c.take k = [] := by
      rw [List.take_eq_nil_iff]
      refine or_congr ⟨fun h => by omega, fun h => by omega⟩ (and_iff_left (by omega))
    rw [htake, hshort]
    constructor
    · rintro ⟨t, ht, h10, -⟩
      rcases List.eq_nil_or_concat (c.take k) with hnil | ⟨c', x, hc'⟩
      · exact hnil
      · rw [hc', List.concat_eq_append, ← List.cons_append, ← List.append_assoc] at ht
        obtain ⟨rfl, -⟩ := List.append_inj' ht rfl
        exact absurd (by simp) h10
    · intro hnil
      rw [hnil]
      exact ⟨a, rfl, ha, (nulFree_append.1 h0).1⟩
  · refine iff_of_false ?_ (by omega)
    rintro ⟨t, ht, -, -⟩
    rw [List.take_append_of_le_length hge] at ht
    exact ha (List.mem_of_mem_take (ht ▸ by simp : (10 : UInt8) ∈ a.take n))

/-- The text about an unknown transport is a line for this sender: it has no LF
    and at most 988 bytes, or its first LF has 999 bytes before it. -/
def Fits (sender : Bytes) : Prop :=
  (10 : UInt8) ∉ sender ∧ sender.length ≤ 988 ∨
    ∃ a c, sender = a ++ 10 :: c ∧ (10 : UInt8) ∉ a ∧ a.length = 999

theorem unknown_isLine {sender : Bytes} (h0 : NulFree sender) (err : Bytes) :
    IsLine (cstr (snprintf err errlen
      (bytes "500 invalid transport, " ++ sender ++ bytes " not found\r\n"))) ↔ Fits sender := by
  have hA : NulFree (bytes "500 invalid transport, ") ∧
      (10 : UInt8) ∉ bytes "500 invalid transport, " := by decide
  have hB : NulFree (bytes " not found\r\n") ∧ (10 : UInt8) ∉ bytes " not found\r" := by decide
  have htext := (hA.1.append h0).append hB.1
  have hlenA : (bytes "500 invalid transport, ").length = 23 := rfl
  rw [cstr_snprintf htext]
  by_cases h10 : (10 : UInt8) ∈ sender
  · obtain ⟨a, c, rfl, ha⟩ := List.eq_append_cons_of_mem h10
    have hcut : bytes "500 invalid transport, " ++ (a ++ 10 :: c) ++ bytes " not found\r\n" =
        (bytes "500 invalid transport, " ++ a) ++ 10 :: (c ++ bytes " not found\r\n") := by simp
    rw [hcut] at htext ⊢
    rw [isLine_take htext (by simp [hA.2, ha]), List.length_append, hlenA]
    constructor
    · rintro (h | ⟨h, -⟩)
      · exact Or.inr ⟨a, c, rfl, ha, by simp only [errlen] at h; omega⟩
      · simp [bytes] at h
    · rintro (⟨h, -⟩ | ⟨a', c', heq, ha', hlen⟩)
      · exact absurd (by simp) h
      · have hidx := congrArg (List.idxOf 10) heq
        rw [List.idxOf_append_of_notMem ha, List.idxOf_append_of_notMem ha', List.idxOf_cons_self,
          List.idxOf_cons_self] at hidx
        exact Or.inl (by simp only [errlen]; omega)
  · have hcut : bytes "500 invalid transport, " ++ sender ++ bytes " not found\r\n" =
        (bytes "500 invalid transport, " ++ sender ++ bytes " not found\r") ++ 10 :: [] := by
      rw [List.append_assoc _ _ (10 :: [])]
      rfl
    rw [hcut] at htext ⊢
    rw [isLine_take htext (by simp [hA.2, h10, hB.2]), List.length_append, List.length_append, hlenA,
      show (bytes " not found\r").length = 11 from rfl]
    constructor
    · intro h
      refine Or.inl ⟨h10, ?_⟩
      rcases h with h | ⟨-, h⟩
      · simp only [errlen] at h
        omega
      · simp only [errlen] at h
        omega
    · rintro (⟨-, h⟩ | ⟨a, c, rfl, -, -⟩)
      · exact Or.inr ⟨rfl, by simp only [errlen]; omega⟩
      · exact absurd (by simp) h10

/-! ## The response to a message -/

/-- `sendMail` has a line for the message: the text about an unknown transport
    fits, or the read whose reply line is passed on has no NUL. -/
def Answerable (transports : List Tp) (M : Bytes) (env : Env) : Prop :=
  let e := prepareSendMail (M ++ [0]) [] errlen
  e.ret = true →
    match findTpByName transports e.sender with
    | none => Fits e.sender
    | some tp => ∀ bs,
      word (env.how.steps tp ++ mailSteps tp e.recipients e.payload) env.net = .line bs → NulFree bs

/-- A step that is not accepted leaves some text. -/
theorem Step.word_error {t : Step} {n : Net} {r : Refusal} (h : t.walk n = .error r) :
    t.word n ≠ .kept := by
  cases t with
  | connect => cases h
  | hand =>
    rcases hh : n.hands with _ | ⟨_ | _, hs⟩ <;> simp_all [Step.walk, Step.word]
  | write data =>
    simp only [Step.walk, Step.word] at h ⊢
    cases hs : n.sends with
    | nil =>
      intro hw
      cases hw
    | cons x xs =>
      rw [hs] at h
      dsimp only at h ⊢
      split_ifs at h ⊢
      intro hw
      cases hw
  | expect codes => exact Step.word_expect codes n
  | stop =>
    intro hw
    cases hw

theorem word_error {ts : List Step} {n : Net} {r : Refusal} (h : walk ts n = .error r) :
    word ts n ≠ .kept := by
  induction ts generalizing n with
  | nil => cases h
  | cons t ts ih =>
    simp only [walk, word] at h ⊢
    cases ht : t.walk n with
    | error r' => exact Step.word_error ht
    | ok n' =>
      rw [ht] at h
      exact Word.over_ne_kept (ih h)

/-- A message always gets some text. -/
theorem word_mail (ts : List Step) (tp : Tp) (toList : List Bytes) (data : Bytes) (n : Net) :
    word (ts ++ mailSteps tp toList data) n ≠ .kept := by
  obtain ⟨us, hlast⟩ : ∃ us, ts ++ mailSteps tp toList data = us ++ [.expect [bytes "250"]] :=
    ⟨ts ++ ([.write (cstr (line1024 "MAIL FROM:<" tp.name)), .expect [bytes "250"]] ++ (rcptSteps toList ++
      [.write (bytes "DATA\r\n"), .expect [bytes "354"], .write (cstr data)])), by simp [mailSteps]⟩
  rw [hlast, word_append]
  split
  · refine Word.over_ne_kept ?_
    simp only [word]
    split
    · exact Step.word_expect [bytes "250"] _
    · exact Step.word_expect [bytes "250"] _
  · rename_i h
    exact word_error h

theorem Step.word_line {t : Step} {n : Net} {bs : Bytes} (h : t.word n = .line bs) :
    bs.length ≤ 1023 := by
  cases t with
  | expect codes =>
    simp only [Step.word] at h
    split at h
    · rename_i c rs hr
      split at h
      · obtain rfl := Word.line.inj h
        exact c.2
      · cases h
    · cases h
  | connect | stop => cases h
  | hand =>
    simp only [Step.word] at h
    split at h <;> cases h
  | write data =>
    simp only [Step.word] at h
    split at h
    · split_ifs at h
    · cases h

theorem word_line {ts : List Step} {n : Net} {bs : Bytes} (h : word ts n = .line bs) :
    bs.length ≤ 1023 := by
  induction ts generalizing n with
  | nil => cases h
  | cons t ts ih =>
    simp only [word] at h
    split at h
    · rename_i n' _
      cases hw : word ts n' with
      | kept =>
        rw [hw] at h
        exact Step.word_line h
      | own =>
        rw [hw] at h
        cases t.word n <;> cases h
      | line bs' =>
        rw [hw] at h
        refine ih (hw.trans ?_)
        cases t.word n <;> exact h
    · exact Step.word_line h

/-- The parser refuses a message with a line. -/
theorem prepareSendMail_isLine {msg err : Bytes}
    (h : ¬ (prepareSendMail msg err errlen).ret = true) :
    IsLine (cstr (prepareSendMail msg err errlen).err) := by
  cases hp : strstr msg dataMark with
  | none =>
    simp only [prepareSendMail, hp]
    exact isLine_text rfl _
  | some p =>
    cases hk : strstr (memset msg p 0 8) crlf with
    | none =>
      simp only [prepareSendMail, hp, hk]
      exact isLine_text rfl _
    | some k => simp only [prepareSendMail, hp, hk, not_true_eq_false] at h

section
variable {transports : List Tp} {M buf : Bytes}

/-- **The response to a message is one line iff the message is answerable.** -/
theorem response_isLine (hb : Holds M buf) (env : Env) :
    IsLine (response transports buf env) ↔ Answerable transports M env := by
  obtain ⟨junk, rfl⟩ := hb.split
  obtain ⟨junk', hM'⟩ := (holds_zero M).split
  have hs := cstr_nulFree M
  obtain ⟨hret, hsame⟩ := prepareSendMail_congr junk env.session.err errlen hs junk' []
  unfold response respond sendMail Answerable
  rw [hM']
  by_cases hr : (prepareSendMail (cstr M ++ 0 :: junk) env.session.err errlen).ret = true
  · obtain ⟨hsender, hrcpts, hpay⟩ := hsame hr
    simp only [← hret, hr, if_true, ← hsender, ← hrcpts, ← hpay, true_imp_iff]
    cases findTpByName transports (prepareSendMail (cstr M ++ 0 :: junk) env.session.err errlen).sender with
    | none => exact unknown_isLine (cstr_nulFree _) _
    | some tp =>
      have htells := tells_tpSendMail tp
        (prepareSendMail (cstr M ++ 0 :: junk) env.session.err errlen).recipients
        ((prepareSendMail (cstr M ++ 0 :: junk) env.session.err errlen).msg.drop
          (prepareSendMail (cstr M ++ 0 :: junk) env.session.err errlen).data) env.how env.session
      rw [show env.session.net = env.net from rfl] at htells
      have hmail : ∀ toList data, mailSteps tp toList (cstr data) = mailSteps tp toList data := by
        intro toList data
        rw [mailSteps, cstr_cstr, mailSteps]
      rw [← hmail] at htells
      rw [Envelope.payload]
      cases hword : word (env.how.steps tp ++ mailSteps tp
          (prepareSendMail (cstr M ++ 0 :: junk) env.session.err errlen).recipients
          (cstr ((prepareSendMail (cstr M ++ 0 :: junk) env.session.err errlen).msg.drop
            (prepareSendMail (cstr M ++ 0 :: junk) env.session.err errlen).data))) env.net with
      | kept => exact absurd hword (word_mail _ _ _ _ _)
      | own =>
        rw [hword] at htells
        refine iff_of_true htells fun bs hbs => ?_
        cases hword.symm.trans hbs
      | line bs =>
        rw [hword] at htells
        refine (replyOf_isLine htells (word_line hword)).trans ⟨fun h0 bs' hbs' => ?_, fun h => h bs hword⟩
        obtain rfl := Word.line.inj (hword.symm.trans hbs')
        exact h0
  · simp only [← hret, hr]
    refine iff_of_true (prepareSendMail_isLine hr) fun h => ?_
    cases h

end

/-! ## The reads and writes of a client thread -/

inductive Io where
  | read (bs : Bytes)
  | write (bs : Bytes)

/-- What one iteration reads from the client and writes to it. -/
def ioOf (transports : List Tp) : ClientThread Env × ClientEvent Env → List Io
  | (⟨some st, _⟩, .read bs env _) =>
    .read bs :: match afterRead st bs with
      | .inl buf => [.write (response transports buf env)]
      | .inr _ => []
  | _ => []

/-- The reads of a message, and the response to it. -/
def ioMessage (transports : List Tp) (cs : List Bytes) (x : Bytes × Env) : List Io :=
  cs.map .read ++ [.write (response transports x.1 x.2)]

/-- What a run should read and write. -/
def ioMessages (transports : List Tp) (f : List (List Bytes) × List Bytes)
    (sent : List (Bytes × Env)) : List Io :=
  (List.zipWith (ioMessage transports) f.1 sent).flatten ++ f.2.map .read

section
variable {transports : List Tp} {p : List (ClientThread Env × ClientEvent Env)} {c : ClientThread Env}

theorem sent_length (h : Runs.Path ClientThread.step .init p c) :
    (cuts (readsOf p)).1.length = c.sent.length := by
  have hlen := (framed_of_path h).sent.length_eq
  rwa [frames_eq_cuts, List.length_map] at hlen

/-- **One write for each message**, between its last read and the next one. -/
theorem io_eq (h : Runs.Path ClientThread.step .init p c) :
    p.flatMap (ioOf transports) = ioMessages transports (cuts (readsOf p)) c.sent := by
  induction h with
  | nil => rfl
  | @snoc p c c' ev hp hs ih =>
    have hf := framed_of_path hp
    have hlen := sent_length hp
    rw [List.flatMap_append, ih, List.flatMap_singleton]
    obtain ⟨_ | st, sent⟩ := c
    · cases hs
    cases ev with
    | read bs env written =>
      obtain ⟨k, rfl, -⟩ := hf.buf st rfl
      have hP : ((cuts (readsOf p)).2 ++ [bs]).flatten = (frames (readsOf p)).2 ++ bs := by
        simp [frames_eq_cuts]
      simp only [ClientThread.step] at hs
      by_cases hbs : 0 < bs.length ∧ bs.length ≤ (ReadBuf.at (frames (readsOf p)).2 k).ptrlen
      swap
      · rw [if_neg hbs] at hs
        cases hs
      rw [if_pos hbs] at hs
      rw [readsOf_snoc, cuts_snoc, cut, hP]
      rcases afterRead_at (P := (frames (readsOf p)).2) (k := k) hbs.1 hbs.2 with ⟨hc, j, hj⟩ | ⟨hc, j, hj, -⟩
      · rw [hj] at hs
        obtain rfl := Option.some.inj hs
        simp only [ioOf, hj, if_pos hc, ioMessages]
        rw [List.zipWith_append hlen]
        simp [ioMessage]
      · rw [hj] at hs
        obtain rfl := Option.some.inj hs
        simp only [ioOf, hj, if_neg hc, ioMessages]
        simp
    | _ =>
      obtain rfl := Option.some.inj hs
      simp [ioOf, readsOf, ClientEvent.bytes?]

/-- **One line for each message.**  In every run of a client thread there is one
    write between the last read of a message and the next read; and it is one
    line iff the message is answerable. -/
theorem reply_lines_iff (transports : List Tp) (h : Runs.Path ClientThread.step .init p c) :
    p.flatMap (ioOf transports) = ioMessages transports (cuts (readsOf p)) c.sent ∧
    List.Forall₂ (fun M x => IsLine (response transports x.1 x.2) ↔ Answerable transports M x.2)
      (frames (readsOf p)).1 c.sent := by
  refine ⟨io_eq h, (framed_of_path h).sent.imp fun M x hx => ?_⟩
  exact response_isLine hx x.2

end

/-- A message in two reads, to a server that accepts it: its reply line is passed on. -/
theorem reply_lines_iff_sent : ∃ (p : List (ClientThread Env × ClientEvent Env)) (c : ClientThread Env),
    Runs.Path ClientThread.step .init p c ∧ readsOf p = [msgPlain.take 9, msgPlain.drop 9] ∧
      List.Forall₂ (fun _ x => p.flatMap (ioOf [tpPlain]) = [.read (msgPlain.take 9), .read (msgPlain.drop 9),
        .write (response [tpPlain] x.1 x.2)] ∧ IsLine (response [tpPlain] x.1 x.2)) [msgPlain] c.sent := by
  obtain ⟨p, c, x, hp, hr, hsent, -, he⟩ := run_msgPlain
  have hframes : (frames (readsOf p)).1 = [msgPlain] := by rw [hr]; decide
  have hcuts : cuts (readsOf p) = ([[msgPlain.take 9, msgPlain.drop 9]], []) := by rw [hr]; decide
  have hans : Answerable [tpPlain] msgPlain envSent := by
    have hd : NulFree (bytes "x\r\n.\r\n") := by decide
    obtain ⟨-, hsender, hrcpts, hpay⟩ := prepare_plain hd
    have hfind : findTpByName [tpPlain] (bytes "t") = some tpPlain := by decide
    intro _
    simp only [msgPlain, hsender, hrcpts, hpay, hfind]
    have hword : word (envSent.how.steps tpPlain ++
        mailSteps tpPlain [bytes "b"] (bytes "x\r\n.\r\n")) envSent.net = .line (lineReply code250).bytes := by decide +kernel
    intro bs hbs
    obtain rfl := Word.line.inj (hword.symm.trans hbs)
    decide
  obtain ⟨hio, hall⟩ := reply_lines_iff [tpPlain] hp
  rw [hframes, hsent] at hall
  rw [hcuts, hsent] at hio
  refine ⟨p, c, hp, hr, ?_⟩
  rw [hsent]
  exact .cons ⟨hio, (List.forall₂_cons.1 hall).1.2 (he ▸ hans)⟩ .nil

/-! ## An LF in the sender -/

/-- A message whose sender is `a`, LF, `b`. -/
def msgLf : Bytes := request (bytes "a\nb") [bytes "b"] (bytes "x\r\n.\r\n")

theorem complete_msgLf : NulFree msgLf ∧ Complete msgLf := by decide

theorem response_msgLf (j : ℕ) (env : Env) :
    response [tpPlain] (msgLf ++ List.replicate (j + 1) 0) env =
      bytes "500 invalid transport, a\nb not found\r\n" := by
  have hf : NulFree (bytes "a\nb") ∧ ¬ crlf <:+: bytes "a\nb" := by decide
  have hr : ∀ r ∈ [bytes "b"], NulFree r ∧ ¬ crlf <:+: r ∧ r ≠ dataWord := by decide
  have hd : NulFree (bytes "x\r\n.\r\n") := by decide
  obtain ⟨hret, hsender, -⟩ := prepareSendMail_request (List.replicate j 0) env.session.err errlen hf
    (by simp) hr hd
  have hfind : findTpByName [tpPlain] (bytes "a\nb") = none := by decide
  unfold response respond sendMail msgLf
  rw [List.replicate_succ]
  simp only [hret, if_true, hsender, hfind]
  exact cstr_snprintf (by decide) _ _

/-- **An LF in the sender** goes into the response. -/
theorem sender_lf : NulFree msgLf ∧ ∃ c, Runs.Path ClientThread.step .init
      [(.init, .read msgLf ⟨.busy, ⟨false, [], [], []⟩⟩ true)] c ∧
    ∃ x ∈ c.sent, response [tpPlain] x.1 x.2 =
      bytes "500 invalid transport, a\nb not found\r\n" ∧ ¬ IsLine (response [tpPlain] x.1 x.2) := by
  obtain ⟨j, c, hc, hp⟩ :=
    path_of_complete complete_msgLf.2 (by decide) (⟨.busy, ⟨false, [], [], []⟩⟩ : Env)
  refine ⟨complete_msgLf.1, c, hp, _, by rw [hc]; exact List.mem_singleton_self _, ?_⟩
  rw [response_msgLf]
  refine ⟨rfl, ?_⟩
  rintro ⟨t, ht, h10, -⟩
  rw [show bytes "500 invalid transport, a\nb not found\r\n" =
    bytes "500 invalid transport, a\nb not found\r" ++ [10] from rfl] at ht
  obtain ⟨rfl, -⟩ := List.append_inj' ht rfl
  revert h10
  decide

end SmtpProxy
