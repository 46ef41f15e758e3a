/-
  The request format and its parser (`prepareSendMail` in client.c, `newTo` in
  rcpt.c).

  The parser works in place: it overwrites each separator with NULs and keeps
  pointers into the message.  `rcptLoop_spec` describes one run of the
  recipient loop by the pieces between the CRLFs; `prepareSendMail_ok`,
  `prepareSendMail_noData` and `prepareSendMail_noRcpt` are the outcomes of the
  whole parser, and `prepareSendMail_inverse` says that it inverts the concatenation of the
  fields.
-/
import SmtpProxy.Lib.CString

namespace SmtpProxy

open CString Search

def crlf : Bytes := [13, 10]

/-- `"DATA"` -/
def dataWord : Bytes := [68, 65, 84, 65]

/-- `"\r\nDATA\r\n"` -/
def dataMark : Bytes := crlf ++ dataWord ++ crlf

/-- `"\r\n.\r\n"` -/
def endMark : Bytes := crlf ++ [46] ++ crlf

/-! ## The recipient list -/

/-- `newTo`: walk to the end of the list and append a node.  A recipient list
    is the list of its `email` pointers. -/
def newTo : List ℕ → ℕ → List ℕ
  | [], email => [email]
  | to_ :: toList, email => to_ :: newTo toList email

theorem newTo_eq (toList : List ℕ) (email : ℕ) : newTo toList email = toList ++ [email] := by
  induction toList with
  | nil => rfl
  | cons to_ toList ih => rw [newTo, ih]; rfl

/-! ## The parser -/

/-- What `prepareSendMail` leaves: its result, the overwritten message, the
    three out-parameters (pointers into the message) and the error buffer. -/
structure Envelope where
  ret : Bool
  msg : Bytes
  from_ : ℕ
  toList : List ℕ
  data : ℕ
  err : Bytes
  deriving DecidableEq

/-- The do-while loop over the recipients; `to_` is at the CRLF before the next
    one.  `fuel` bounds the number of iterations. -/
def rcptLoop : ℕ → Bytes → ℕ → List ℕ → Bytes × List ℕ
  | 0, msg, _, toList => (msg, toList)
  | fuel + 1, msg, to_, toList =>
    let msg := memset msg to_ 0 2
    let to_ := to_ + 2
    let toList := newTo toList to_
    match strstr (msg.drop to_) crlf with
    | some k => rcptLoop fuel msg (to_ + k) toList
    | none => (msg, toList)

/-- `prepareSendMail`; `*toList` is NULL and `from`, `data` are unset on entry. -/
def prepareSendMail (msg err : Bytes) (errlen : ℕ) : Envelope :=
  match strstr msg dataMark with
  | none =>
    ⟨false, msg, 0, [], 0,
      snprintf err errlen (bytes "500 invalid msg format, DATA command not found\r\n")⟩
  | some p =>
    let msg := memset msg p 0 8
    match strstr msg crlf with
    | none =>
      ⟨false, msg, 0, [], p + 8,
        snprintf err errlen (bytes "500 invalid msg format, recipients not found\r\n")⟩
    | some to_ =>
      let r := rcptLoop msg.length msg to_ []
      ⟨true, r.1, 0, r.2, p + 8, err⟩

namespace Envelope
variable (e : Envelope)

/-- The sender, read from the overwritten message. -/
def sender : Bytes := cstr (e.msg.drop e.from_)

/-- The recipients, in list order. -/
def recipients : List Bytes := e.toList.map fun to_ => cstr (e.msg.drop to_)

/-- The payload. -/
def payload : Bytes := cstr (e.msg.drop e.data)

end Envelope

/-! ## The separators -/

theorem unbordered_crlf : Unbordered crlf := by decide

theorem crlf_notIn_dataWord : ¬ crlf <:+: dataWord := by decide

theorem crlf_nulFree : NulFree crlf := by decide

theorem crlf_length : crlf.length = 2 := rfl

theorem dataMark_nulFree : NulFree dataMark := by decide

/-! ## The recipient loop -/

/-- **The recipient loop.**  On a block `a ++ CRLF ++ y ++ NUL ++ rest` with
    `to_` at the CRLF it keeps `a` and `rest`, and the recipients it appends are
    the pieces of `y`. -/
theorem rcptLoop_spec (rest : Bytes) : ∀ (fuel : ℕ) (a y : Bytes) (toList : List ℕ),
    NulFree y → y.length < fuel → ∃ z offs,
      rcptLoop fuel (a ++ (crlf ++ (y ++ 0 :: rest))) a.length toList =
        (a ++ ([0, 0] ++ (z ++ 0 :: rest)), toList ++ offs) ∧
      z.length = y.length ∧
      IsSplit crlf y (offs.map fun o => cstr ((a ++ ([0, 0] ++ (z ++ 0 :: rest))).drop o)) := by
  intro fuel
  induction fuel with
  | zero => intro a y toList _ h; omega
  | succ fuel ih =>
    intro a y toList hy hfuel
    have hmem : memset (a ++ (crlf ++ (y ++ 0 :: rest))) a.length 0 2 =
        a ++ ([0, 0] ++ (y ++ 0 :: rest)) := memset_append a crlf _ 0
    have hto : ∀ z : Bytes, (a ++ ([0, 0] ++ (z ++ 0 :: rest))).drop (a.length + 2) =
        z ++ 0 :: rest := fun z => by rw [← List.drop_drop, List.drop_left]; rfl
    have hstr : strstr ((a ++ ([0, 0] ++ (y ++ 0 :: rest))).drop (a.length + 2)) crlf =
        find crlf y := by rw [hto, strstr, cstr_append_zero hy]
    rw [rcptLoop]
    simp only [hmem, hstr, newTo_eq]
    rcases hf : find crlf y with _ | k
    · -- the last recipient
      refine ⟨y, [a.length + 2], rfl, rfl, ?_⟩
      simp only [List.map_singleton, hto, cstr_append_zero hy]
      exact isSplit_singleton (find_eq_none_iff.1 hf)
    · -- a CRLF follows: the recipient ends there and the loop goes on behind it
      obtain ⟨y₁, y₂, hfirst, rfl⟩ := find_eq_some_iff.1 hf
      obtain rfl := hfirst.eq
      have hy₁ : NulFree y₁ := (nulFree_append.1 (nulFree_append.1 hy).1).1
      have hy₂ : NulFree y₂ := (nulFree_append.1 hy).2
      have hl : a.length + 2 + y₁.length = (a ++ ([0, 0] ++ y₁)).length := by simp; omega
      have hm : a ++ ([0, 0] ++ (y₁ ++ crlf ++ y₂ ++ 0 :: rest)) =
          (a ++ ([0, 0] ++ y₁)) ++ (crlf ++ (y₂ ++ 0 :: rest)) := by simp
      obtain ⟨z, offs, hr, hz, hsplit⟩ := ih (a ++ ([0, 0] ++ y₁)) y₂ (toList ++ [a.length + 2]) hy₂
        (by simp only [List.length_append, crlf_length] at hfuel; omega)
      have hm' : (a ++ ([0, 0] ++ y₁)) ++ ([0, 0] ++ (z ++ 0 :: rest)) =
          a ++ ([0, 0] ++ ((y₁ ++ ([0, 0] ++ z)) ++ 0 :: rest)) := by simp
      refine ⟨y₁ ++ ([0, 0] ++ z), (a.length + 2) :: offs, ?_, by simp [hz, crlf_length]; omega, ?_⟩
      · show rcptLoop fuel _ (a.length + 2 + y₁.length) (toList ++ [a.length + 2]) = _
        rw [hl, hm, hr, hm', List.append_assoc toList]; rfl
      · rw [hm'] at hsplit
        have h1 : cstr (y₁ ++ ([0, 0] ++ z) ++ 0 :: rest) = y₁ := by
          rw [List.append_assoc]; exact cstr_append_zero hy₁ _
        rw [List.map_cons, hto, h1]
        exact hsplit.cons (hfirst.free (by decide))

/-! ## The whole parser -/

section
variable {s : Bytes} (junk err : Bytes) (errlen : ℕ)

theorem prepareSendMail_noData (hs : NulFree s) (h : ¬ dataMark <:+: s) :
    prepareSendMail (s ++ 0 :: junk) err errlen = ⟨false, s ++ 0 :: junk, 0, [], 0,
      snprintf err errlen (bytes "500 invalid msg format, DATA command not found\r\n")⟩ := by
  have hn : strstr (s ++ 0 :: junk) dataMark = none := by
    rw [strstr_eq_none_iff, cstr_append_zero hs]; exact h
  simp only [prepareSendMail, hn]

/-- The message after the DATA line has been overwritten. -/
theorem memset_dataMark (h d : Bytes) :
    memset (h ++ dataMark ++ d ++ 0 :: junk) h.length 0 8 =
      h ++ 0 :: (List.replicate 7 0 ++ (d ++ 0 :: junk)) := by
  have := memset_append h dataMark (d ++ 0 :: junk) 0
  simpa [dataMark, crlf, dataWord] using this

theorem prepareSendMail_noRcpt (hs : NulFree s) {h d : Bytes} (hf : IsFirst dataMark s h d)
    (hc : ¬ crlf <:+: h) : prepareSendMail (s ++ 0 :: junk) err errlen =
      ⟨false, h ++ 0 :: (List.replicate 7 0 ++ (d ++ 0 :: junk)), 0, [], h.length + 8,
        snprintf err errlen (bytes "500 invalid msg format, recipients not found\r\n")⟩ := by
  have hh : NulFree h := by rw [hf.eq] at hs; exact (nulFree_append.1 (nulFree_append.1 hs).1).1
  have hp : strstr (s ++ 0 :: junk) dataMark = some h.length := by
    rw [strstr, cstr_append_zero hs]; exact hf.find_eq
  have hmsg : memset (s ++ 0 :: junk) h.length 0 8 =
      h ++ 0 :: (List.replicate 7 0 ++ (d ++ 0 :: junk)) := by rw [hf.eq]; exact memset_dataMark _ _ _
  have hn : strstr (h ++ 0 :: (List.replicate 7 0 ++ (d ++ 0 :: junk))) crlf = none := by
    rw [strstr_eq_none_iff, cstr_append_zero hh]; exact hc
  simp only [prepareSendMail, hp, hmsg, hn]

/-- **A well-formed request**: the header before the DATA line has a CRLF.  The
    sender and the recipients are its pieces, and the payload is the rest. -/
theorem prepareSendMail_ok (hs : NulFree s) {h d : Bytes} (hf : IsFirst dataMark s h d)
    (hc : crlf <:+: h) :
    (prepareSendMail (s ++ 0 :: junk) err errlen).ret = true ∧
    (prepareSendMail (s ++ 0 :: junk) err errlen).err = err ∧
    (prepareSendMail (s ++ 0 :: junk) err errlen).recipients ≠ [] ∧
    IsSplit crlf h ((prepareSendMail (s ++ 0 :: junk) err errlen).sender ::
      (prepareSendMail (s ++ 0 :: junk) err errlen).recipients) ∧
    (prepareSendMail (s ++ 0 :: junk) err errlen).payload = d := by
  obtain rfl := hf.eq
  obtain ⟨hhm, hd⟩ := nulFree_append.1 hs
  have hh : NulFree h := (nulFree_append.1 hhm).1
  obtain ⟨f, y, hfy⟩ := exists_isFirst hc
  obtain rfl := hfy.eq
  have hf0 : NulFree f := (nulFree_append.1 (nulFree_append.1 hh).1).1
  have hy : NulFree y := (nulFree_append.1 hh).2
  set rest : Bytes := List.replicate 7 0 ++ (d ++ 0 :: junk) with hrest
  have hp : strstr (f ++ crlf ++ y ++ dataMark ++ d ++ 0 :: junk) dataMark =
      some (f ++ crlf ++ y).length := by
    rw [strstr, cstr_append_zero hs]; exact hf.find_eq
  have hto : strstr (f ++ crlf ++ y ++ 0 :: rest) crlf = some f.length := by
    rw [strstr, cstr_append_zero hh]; exact hfy.find_eq
  have hm : f ++ crlf ++ y ++ 0 :: rest = f ++ (crlf ++ (y ++ 0 :: rest)) := by simp
  obtain ⟨z, offs, hr, hz, hsplit⟩ := rcptLoop_spec rest (f ++ crlf ++ y ++ 0 :: rest).length f y []
    hy (by simp; omega)
  have hpar : prepareSendMail (f ++ crlf ++ y ++ dataMark ++ d ++ 0 :: junk) err errlen =
      ⟨true, f ++ ([0, 0] ++ (z ++ 0 :: rest)), 0, offs, (f ++ crlf ++ y).length + 8, err⟩ := by
    rw [← hm] at hr
    simp only [prepareSendMail, hp, memset_dataMark, ← hrest, hto, hr, List.nil_append]
  rw [hpar]
  have hsender : cstr (f ++ ([0, 0] ++ (z ++ 0 :: rest))) = f := cstr_append_zero hf0 _
  refine ⟨rfl, rfl, ?_, ?_, ?_⟩
  · have := hsplit.ne
    simpa [Envelope.recipients] using this
  · simp only [Envelope.sender, Envelope.recipients, List.drop_zero, hsender]
    exact hsplit.cons (hfy.free (by decide))
  · have hpos : f ++ ([0, 0] ++ (z ++ 0 :: rest)) =
        (f ++ ([0, 0] ++ (z ++ List.replicate 8 0))) ++ (d ++ 0 :: junk) := by
      simp [hrest, List.replicate_succ]
    have hlen : (f ++ crlf ++ y).length + 8 = (f ++ ([0, 0] ++ (z ++ List.replicate 8 0))).length := by
      simp [hz, crlf]; omega
    simp only [Envelope.payload, hpos, hlen, List.drop_left]
    exact cstr_append_zero hd _

/-- The parser rejects exactly the messages without a DATA line or without a
    CRLF before it. -/
theorem prepareSendMail_ret (hs : NulFree s) :
    (prepareSendMail (s ++ 0 :: junk) err errlen).ret = true ↔
      ∃ h d, IsFirst dataMark s h d ∧ crlf <:+: h := by
  by_cases hD : dataMark <:+: s
  · obtain ⟨h, d, hf⟩ := exists_isFirst hD
    by_cases hc : crlf <:+: h
    · exact ⟨fun _ => ⟨h, d, hf, hc⟩, fun _ => (prepareSendMail_ok junk err errlen hs hf hc).1⟩
    · rw [prepareSendMail_noRcpt junk err errlen hs hf hc]
      constructor
      · intro h'; cases h'
      · rintro ⟨h', d', hf', hc'⟩
        obtain ⟨rfl, -⟩ := hf.unique hf'
        exact absurd hc' hc
  · rw [prepareSendMail_noData junk err errlen hs hD]
    constructor
    · intro h'; cases h'
    · rintro ⟨h', d', hf', -⟩
      exact absurd ⟨h', d', hf'.eq.symm⟩ hD

/-- Only the string of the message counts: not what stands behind it, nor the
    error text. -/
theorem prepareSendMail_congr (hs : NulFree s) (junk' err' : Bytes) :
    (prepareSendMail (s ++ 0 :: junk) err errlen).ret =
      (prepareSendMail (s ++ 0 :: junk') err' errlen).ret ∧
    ((prepareSendMail (s ++ 0 :: junk) err errlen).ret = true →
      (prepareSendMail (s ++ 0 :: junk) err errlen).sender =
        (prepareSendMail (s ++ 0 :: junk') err' errlen).sender ∧
      (prepareSendMail (s ++ 0 :: junk) err errlen).recipients =
        (prepareSendMail (s ++ 0 :: junk') err' errlen).recipients ∧
      (prepareSendMail (s ++ 0 :: junk) err errlen).payload =
        (prepareSendMail (s ++ 0 :: junk') err' errlen).payload) := by
  refine ⟨?_, fun hret => ?_⟩
  · rw [Bool.eq_iff_iff, prepareSendMail_ret junk err errlen hs,
      prepareSendMail_ret junk' err' errlen hs]
  · obtain ⟨h, d, hf, hc⟩ := (prepareSendMail_ret junk err errlen hs).1 hret
    obtain ⟨-, -, -, hsplit, hpay⟩ := prepareSendMail_ok junk err errlen hs hf hc
    obtain ⟨-, -, -, hsplit', hpay'⟩ := prepareSendMail_ok junk' err' errlen hs hf hc
    obtain ⟨hsender, hrcpts⟩ := List.cons.inj (hsplit.unique unbordered_crlf hsplit')
    exact ⟨hsender, hrcpts, hpay.trans hpay'.symm⟩

end

/-! ## The parser inverts the format -/

/-- The request built from its fields: the sender, the recipients and `DATA`
    on lines of their own, then the payload. -/
def request (from_ : Bytes) (rcpts : List Bytes) (data : Bytes) : Bytes :=
  from_ ++ crlf ++ crlf.intercalate rcpts ++ dataMark ++ data

theorem request_eq (from_ : Bytes) {rcpts : List Bytes} (hr : rcpts ≠ []) (data : Bytes) :
    request from_ rcpts data = crlf.intercalate (from_ :: rcpts) ++ dataMark ++ data := by
  cases rcpts with
  | nil => exact absurd rfl hr
  | cons r rs => rw [List.intercalate_cons_cons, request]

/-- The DATA line of a request is the one that `request` wrote. -/
theorem isFirst_request {from_ : Bytes} {rcpts : List Bytes} (data : Bytes)
    (hfrom : ¬ crlf <:+: from_) (hne : rcpts ≠ [])
    (hr : ∀ r ∈ rcpts, ¬ crlf <:+: r ∧ r ≠ dataWord) :
    IsFirst dataMark (request from_ rcpts data) (crlf.intercalate (from_ :: rcpts)) data := by
  rw [request_eq from_ hne]
  exact isFirst_line unbordered_crlf crlf_notIn_dataWord data rcpts from_ hfrom hr

theorem nulFree_intercalate : ∀ {ps : List Bytes}, (∀ p ∈ ps, NulFree p) →
    NulFree (crlf.intercalate ps)
  | [], _ => by decide
  | [p], h => by simpa using h
  | p :: q :: ps, h => by
    rw [List.intercalate_cons_cons]
    exact ((h p (by simp)).append crlf_nulFree).append
      (nulFree_intercalate fun x hx => h x (List.mem_cons_of_mem _ hx))

/-- A request is parsed into its fields. -/
theorem prepareSendMail_request (junk err : Bytes) (errlen : ℕ) {from_ data : Bytes}
    {rcpts : List Bytes} (hf : NulFree from_ ∧ ¬ crlf <:+: from_) (hne : rcpts ≠ [])
    (hr : ∀ r ∈ rcpts, NulFree r ∧ ¬ crlf <:+: r ∧ r ≠ dataWord) (hd : NulFree data) :
    (prepareSendMail (request from_ rcpts data ++ 0 :: junk) err errlen).ret = true ∧
    (prepareSendMail (request from_ rcpts data ++ 0 :: junk) err errlen).sender = from_ ∧
    (prepareSendMail (request from_ rcpts data ++ 0 :: junk) err errlen).recipients = rcpts ∧
    (prepareSendMail (request from_ rcpts data ++ 0 :: junk) err errlen).payload = data := by
  have hfirst := isFirst_request data hf.2 hne fun r h => (hr r h).2
  have hnul : NulFree (request from_ rcpts data) := by
    rw [request_eq _ hne]
    refine ((nulFree_intercalate fun p hp => ?_).append dataMark_nulFree).append hd
    rcases List.mem_cons.1 hp with rfl | hp
    · exact hf.1
    · exact (hr p hp).1
  have hc : crlf <:+: crlf.intercalate (from_ :: rcpts) := by
    cases rcpts with
    | nil => exact absurd rfl hne
    | cons r rs => exact ⟨from_, _, (List.intercalate_cons_cons).symm⟩
  obtain ⟨hret, -, -, hsplit, hpay⟩ := prepareSendMail_ok junk err errlen hnul hfirst hc
  have hgiven : IsSplit crlf (crlf.intercalate (from_ :: rcpts)) (from_ :: rcpts) := by
    refine ⟨by simp, fun p hp => ?_, rfl⟩
    rcases List.mem_cons.1 hp with rfl | hp
    · exact hf.2
    · exact (hr p hp).2.1
  have := hsplit.unique unbordered_crlf hgiven
  simp only [List.cons.injEq] at this
  exact ⟨hret, this.1, this.2, hpay⟩

/-- **The parser is the inverse of the request format.**  It accepts a message
    iff it has a DATA line with a CRLF before it, the fields it returns rebuild
    the message, and it returns the fields a message was built from. -/
theorem prepareSendMail_inverse (junk err : Bytes) (errlen : ℕ) :
    (∀ msg : Bytes, NulFree msg →
      ((prepareSendMail (msg ++ 0 :: junk) err errlen).ret = true ↔
        ∃ h d, IsFirst dataMark msg h d ∧ crlf <:+: h) ∧
      ((prepareSendMail (msg ++ 0 :: junk) err errlen).ret = true →
        ¬ crlf <:+: (prepareSendMail (msg ++ 0 :: junk) err errlen).sender ∧
        (∀ r ∈ (prepareSendMail (msg ++ 0 :: junk) err errlen).recipients, ¬ crlf <:+: r) ∧
        (prepareSendMail (msg ++ 0 :: junk) err errlen).recipients ≠ [] ∧
        request (prepareSendMail (msg ++ 0 :: junk) err errlen).sender
          (prepareSendMail (msg ++ 0 :: junk) err errlen).recipients
          (prepareSendMail (msg ++ 0 :: junk) err errlen).payload = msg)) ∧
    (∀ (from_ : Bytes) (rcpts : List Bytes) (data : Bytes),
      NulFree from_ ∧ ¬ crlf <:+: from_ → rcpts ≠ [] →
      (∀ r ∈ rcpts, NulFree r ∧ ¬ crlf <:+: r ∧ r ≠ dataWord) → NulFree data →
      (prepareSendMail (request from_ rcpts data ++ 0 :: junk) err errlen).ret = true ∧
      (prepareSendMail (request from_ rcpts data ++ 0 :: junk) err errlen).sender = from_ ∧
      (prepareSendMail (request from_ rcpts data ++ 0 :: junk) err errlen).recipients = rcpts ∧
      (prepareSendMail (request from_ rcpts data ++ 0 :: junk) err errlen).payload = data) := by
  refine ⟨fun msg hm => ⟨prepareSendMail_ret junk err errlen hm, fun hret => ?_⟩,
    fun from_ rcpts data hf hne hr hd => prepareSendMail_request junk err errlen hf hne hr hd⟩
  obtain ⟨h, d, hfirst, hc⟩ := (prepareSendMail_ret junk err errlen hm).1 hret
  obtain ⟨-, -, hne, hsplit, hpay⟩ := prepareSendMail_ok junk err errlen hm hfirst hc
  refine ⟨hsplit.free _ (by simp), fun r hr => hsplit.free _ (List.mem_cons_of_mem _ hr), hne, ?_⟩
  rw [request_eq _ hne, hsplit.join, hpay]
  exact hfirst.eq.symm

/-- The request `a CRLF b CRLF c CRLF DATA CRLF x` is parsed and rebuilt. -/
theorem prepareSendMail_inverse_ab :
    (prepareSendMail (request [97] [[98], [99]] [120] ++ 0 :: [0]) [] 1024).ret = true ∧
    (prepareSendMail (request [97] [[98], [99]] [120] ++ 0 :: [0]) [] 1024).recipients = [[98], [99]] ∧
    request (prepareSendMail (request [97] [[98], [99]] [120] ++ 0 :: [0]) [] 1024).sender
      (prepareSendMail (request [97] [[98], [99]] [120] ++ 0 :: [0]) [] 1024).recipients
      (prepareSendMail (request [97] [[98], [99]] [120] ++ 0 :: [0]) [] 1024).payload =
        request [97] [[98], [99]] [120] := by
  obtain ⟨hinv, hbuild⟩ := prepareSendMail_inverse [0] [] 1024
  obtain ⟨hret, -, hr, -⟩ := hbuild [97] [[98], [99]] [120] ⟨by decide, by decide⟩ (by decide)
    (by decide) (by decide)
  exact ⟨hret, hr, ((hinv (request [97] [[98], [99]] [120]) (by decide)).2 hret).2.2.2⟩

end SmtpProxy
