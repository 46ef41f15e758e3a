/-
  The recipients of a message in memory (rcpt.c), from `prepareSendMail` to
  `freeToList`.

  `Envelope` has the recipients as a list of pointers into the message; here they
  are `rcpt_t` nodes in a heap, and the loops over them take a bound on their
  rounds.  A step through a NULL or freed pointer, or one round too many, has no
  result.

  * `newTo`, `freeToList`, `smtpRCPTTO`: the loops over the nodes;
  * `Rcpts`: the nodes from a pointer on, with their `email`s; `Grown`: a heap that
    has only them in addition to another;
  * `newTo_grown`, `freeToList_eq`, `smtpRCPTTO_eq`: one lemma a loop;
  * `sendMail_refines`: **`sendMail` on the nodes is `sendMail` on the list, and frees
    every node it has made**, whatever becomes of the message.
-/
import SmtpProxy.Lib.Heap
import SmtpProxy.Recipients

namespace SmtpProxy

open CString

/-- `rcpt_t`; `email` points into the message. -/
structure Rcpt where
  email : ℕ
  next : Option ℕ
  deriving DecidableEq

namespace RcptList

/-- The loop of `newTo`: the node whose `next` is NULL. -/
def lastTo : ℕ → Heap Rcpt → ℕ → Option ℕ
  | 0, _, _ => none
  | rounds + 1, heap, to_ => (heap.get to_).bind fun k =>
    match k.next with
    | none => some to_
    | some next => lastTo rounds heap next

/-- `newTo(&toList, email)` -/
def newTo (rounds : ℕ) (heap : Heap Rcpt) (toList : Option ℕ) (email : ℕ) :
    Option (Heap Rcpt × Option ℕ) :=
  let node := heap.fresh
  let heap := heap.alloc ⟨email, none⟩
  match toList with
  | none => some (heap, some node)
  | some to_ =>
    (lastTo rounds heap to_).bind fun last =>
      (heap.write last fun k => { k with next := some node }).map fun heap => (heap, some to_)

def freeToList : ℕ → Heap Rcpt → Option ℕ → Option (Heap Rcpt)
  | _, heap, none => some heap
  | 0, _, some _ => none
  | rounds + 1, heap, some to_ =>
    (heap.get to_).bind fun k => (heap.free to_).bind fun heap => freeToList rounds heap k.next

/-- The recipient loop of `prepareSendMail`. -/
def rcptLoop (rounds : ℕ) : ℕ → Bytes → ℕ → Heap Rcpt → Option ℕ → Option (Bytes × Heap Rcpt × Option ℕ)
  | 0, msg, _, heap, toList => some (msg, heap, toList)
  | fuel + 1, msg, to_, heap, toList =>
    let msg := memset msg to_ 0 2
    let to_ := to_ + 2
    (newTo rounds heap toList to_).bind fun r =>
      match strstr (msg.drop to_) crlf with
      | some k => rcptLoop rounds fuel msg (to_ + k) r.1 r.2
      | none => some (msg, r.1, r.2)

/-- What `prepareSendMail` leaves, with the nodes. -/
structure Prepared where
  ret : Bool
  msg : Bytes
  from_ : ℕ
  toList : Option ℕ
  data : ℕ
  err : Bytes
  heap : Heap Rcpt

def prepareSendMail (rounds : ℕ) (msg err : Bytes) (errlen : ℕ) (heap : Heap Rcpt) : Option Prepared :=
  match strstr msg dataMark with
  | none =>
    some ⟨false, msg, 0, none, 0,
      snprintf err errlen (bytes "500 invalid msg format, DATA command not found\r\n"), heap⟩
  | some p =>
    let msg := memset msg p 0 8
    match strstr msg crlf with
    | none =>
      some ⟨false, msg, 0, none, p + 8,
        snprintf err errlen (bytes "500 invalid msg format, recipients not found\r\n"), heap⟩
    | some to_ =>
      (rcptLoop rounds msg.length msg to_ heap none).map fun r =>
        ⟨true, r.1, 0, r.2.2, p + 8, err, r.2.1⟩

/-- `smtpRCPTTO`, which leaves its loop with 0 at the first recipient that is refused. -/
def smtpRCPTTO (msg : Bytes) (heap : Heap Rcpt) : ℕ → Option ℕ → Session → Option (Bool × Session)
  | _, none, w => some (true, w)
  | 0, some _, _ => none
  | rounds + 1, some to_, w => (heap.get to_).bind fun k =>
    match rcptTo (cstr (msg.drop k.email)) w with
    | (true, w) => smtpRCPTTO msg heap rounds k.next w
    | (false, w) => some (false, w)

/-- `tpSendMail`, which has a connection before it looks at the recipients. -/
def tpSendMail (rounds : ℕ) (tp : Tp) (msg : Bytes) (heap : Heap Rcpt) (toList : Option ℕ) (data : Bytes)
    (how : GetConn) (w : Session) : Option (Bool × Session) :=
  match (how.ready tp).and (smtpMAILFROM tp.name) w with
  | (false, w) => some (false, w)
  | (true, w) => (smtpRCPTTO msg heap rounds toList w).map fun
    | (false, w) => (false, w)
    | (true, w) => smtpDATA data w

/-- `sendMail`: the session, and the heap after it. -/
def sendMail (rounds : ℕ) (transports : List Tp) (msg : Bytes) (how : GetConn) (w : Session)
    (heap : Heap Rcpt) : Option (Session × Heap Rcpt) :=
  (prepareSendMail rounds msg w.err errlen heap).bind fun e =>
    if e.ret then
      let sender := cstr (e.msg.drop e.from_)
      match findTpByName transports sender with
      | none =>
        (freeToList rounds e.heap e.toList).map fun heap =>
          ((Cmd.fail (bytes "500 invalid transport, " ++ sender ++ bytes " not found\r\n") w).2, heap)
      | some tp =>
        (tpSendMail rounds tp e.msg e.heap e.toList (e.msg.drop e.data) how w).bind fun r =>
          (freeToList rounds e.heap e.toList).map fun heap => (r.2, heap)
    else some ({ w with err := e.err }, e.heap)

/-! ## The nodes -/

/-- From `p` on there are the nodes `ns`, with the `email`s `es`. -/
inductive Rcpts (heap : Heap Rcpt) : Option ℕ → List ℕ → List ℕ → Prop
  | nil : Rcpts heap none [] []
  | cons {n e : ℕ} {next : Option ℕ} {ns es : List ℕ} : heap.get n = some ⟨e, next⟩ →
      Rcpts heap next ns es → Rcpts heap (some n) (n :: ns) (e :: es)

/-- `heap` has the nodes of a list of recipients, and else is as `base`. -/
structure Grown (base heap : Heap Rcpt) (p : Option ℕ) (ns es : List ℕ) : Prop where
  rcpts : Rcpts heap p ns es
  nodup : ns.Nodup
  new : ∀ n ∈ ns, base.get n = none
  same : ∀ n ∉ ns, heap.get n = base.get n
  bound : base.fresh ≤ heap.fresh

section
variable {base heap heap' : Heap Rcpt} {p : Option ℕ} {ns es : List ℕ} {rounds email : ℕ}

theorem Rcpts.congr (h : Rcpts heap p ns es) (hget : ∀ n ∈ ns, heap'.get n = heap.get n) :
    Rcpts heap' p ns es := by
  induction h with
  | nil => exact .nil
  | cons hn _ ih =>
    refine .cons ((hget _ List.mem_cons_self).trans hn) (ih fun n hmem => hget n (List.mem_cons_of_mem _ hmem))

theorem Rcpts.alive (h : Rcpts heap p ns es) : ∀ n ∈ ns, heap.get n ≠ none := by
  induction h with
  | nil => exact nofun
  | cons hn _ ih =>
    refine List.forall_mem_cons.2 ⟨?_, ih⟩
    rw [hn]
    exact Option.some_ne_none _

theorem Rcpts.length_eq (h : Rcpts heap p ns es) : ns.length = es.length := by
  induction h with
  | nil => rfl
  | cons _ _ ih => rw [List.length_cons, List.length_cons, ih]

/-- One more node behind the last. -/
theorem Rcpts.extend (h : Rcpts heap p ns es) {last node : ℕ} (hlast : ns.getLast? = some last)
    (hnodup : ns.Nodup) (hsame : ∀ n ∈ ns, n ≠ last → heap'.get n = heap.get n)
    (hlink : heap'.get last = (heap.get last).map fun k => { k with next := some node })
    (hnode : heap'.get node = some ⟨email, none⟩) : Rcpts heap' p (ns ++ [node]) (es ++ [email]) := by
  induction h with
  | nil => cases hlast
  | @cons n e next ns es hn hrest ih =>
    obtain ⟨hnot, hnodup⟩ := List.nodup_cons.1 hnodup
    cases hrest with
    | nil =>
      obtain rfl : n = last := Option.some.inj hlast
      rw [hn] at hlink
      exact .cons hlink (.cons hnode .nil)
    | cons hn' hrest' =>
      rw [List.getLast?_cons_cons] at hlast
      have hne : n ≠ last := by
        rintro rfl
        exact hnot (List.mem_of_getLast? hlast)
      refine .cons ((hsame n List.mem_cons_self hne).trans hn) (ih hlast hnodup ?_)
      exact fun m hm => hsame m (List.mem_cons_of_mem _ hm)

/-! ## The loops -/

theorem lastTo_eq {to_ : ℕ} (h : Rcpts heap (some to_) ns es) (hrounds : ns.length ≤ rounds) :
    lastTo rounds heap to_ = ns.getLast? := by
  induction rounds generalizing to_ ns es with
  | zero =>
    cases h with
    | cons _ _ => exact absurd hrounds (Nat.not_succ_le_zero _)
  | succ rounds ih =>
    cases h with
    | cons hn hrest =>
      rw [lastTo, hn, Option.bind_some]
      cases hrest with
      | nil => rfl
      | cons hn' hrest' =>
        rw [List.getLast?_cons_cons]
        exact ih (.cons hn' hrest') (Nat.le_of_succ_le_succ hrounds)

/-- The next name has not been used by the nodes, nor before them. -/
theorem Grown.fresh (h : Grown base heap p ns es) : heap.fresh ∉ ns ∧ base.get heap.fresh = none := by
  constructor
  · exact fun hmem => h.rcpts.alive _ hmem heap.get_fresh
  · by_contra hne
    exact absurd (base.bound _ hne) (Nat.not_lt_of_ge h.bound)

/-- The list with a new node behind the others. -/
theorem Grown.snoc (h : Grown base heap p ns es) {p' : Option ℕ}
    (hrcpts : Rcpts heap' p' (ns ++ [heap.fresh]) (es ++ [email]))
    (hsame : ∀ n ∉ ns, n ≠ heap.fresh → heap'.get n = heap.get n) (hbound : heap'.fresh = heap.fresh + 1) :
    Grown base heap' p' (ns ++ [heap.fresh]) (es ++ [email]) where
  rcpts := hrcpts
  nodup := List.nodup_append.2 ⟨h.nodup, by simp, fun n hn m hm hnm => by
    obtain rfl := List.mem_singleton.1 hm
    exact h.fresh.1 (hnm ▸ hn)⟩
  new n hn := by
    rcases List.mem_append.1 hn with hn | hn
    · exact h.new n hn
    · obtain rfl := List.mem_singleton.1 hn
      exact h.fresh.2
  same n hn := by
    rw [List.mem_append, List.mem_singleton, not_or] at hn
    rw [hsame n hn.1 hn.2, h.same n hn.1]
  bound := by
    rw [hbound]
    exact Nat.le_succ_of_le h.bound

/-- **`newTo`** puts a new node behind the others. -/
theorem newTo_grown (h : Grown base heap p ns es) (hrounds : ns.length ≤ rounds) (email : ℕ) :
    ∃ heap' p', newTo rounds heap p email = some (heap', p') ∧
      Grown base heap' p' (ns ++ [heap.fresh]) (es ++ [email]) := by
  have hother : ∀ n, n ≠ heap.fresh → (heap.alloc ⟨email, none⟩).get n = heap.get n :=
    fun n hn => by rw [Heap.get_alloc, if_neg hn]
  have hnode : (heap.alloc ⟨email, none⟩).get heap.fresh = some ⟨email, none⟩ := by
    rw [Heap.get_alloc, if_pos rfl]
  cases p with
  | none =>
    obtain ⟨rfl, rfl⟩ : ns = [] ∧ es = [] := by
      cases h.rcpts
      exact ⟨rfl, rfl⟩
    exact ⟨_, _, rfl, h.snoc (.cons hnode .nil) (fun n _ hn => hother n hn) rfl⟩
  | some to_ =>
    have hne : ∀ n ∈ ns, n ≠ heap.fresh := by
      rintro n hn rfl
      exact h.fresh.1 hn
    have hrcpts := h.rcpts.congr fun n hn => hother n (hne n hn)
    obtain ⟨last, hlast⟩ : ∃ last, ns.getLast? = some last := by
      cases h.rcpts with
      | cons _ _ => exact ⟨_, List.getLast?_eq_some_getLast (List.cons_ne_nil _ _)⟩
    have hmem := List.mem_of_getLast? hlast
    obtain ⟨heap', hwrite⟩ := Heap.write_isSome (f := fun k : Rcpt => { k with next := some heap.fresh })
      (hrcpts.alive last hmem)
    obtain ⟨k, hk, hget, hbound⟩ := Heap.write_some hwrite
    have hsame : ∀ n, n ≠ last → heap'.get n = (heap.alloc ⟨email, none⟩).get n :=
      fun n hn => Heap.get_write_of_ne hwrite hn
    refine ⟨heap', some to_, ?_, h.snoc ?_ (fun n hn hnew => ?_) hbound⟩
    · rw [newTo, lastTo_eq hrcpts hrounds, hlast, Option.bind_some, hwrite, Option.map_some]
    · refine hrcpts.extend hlast h.nodup (fun n _ hn => hsame n hn) ?_ ?_
      · rw [hget, Function.update_self, hk, Option.map_some]
      · rw [hsame _ (hne last hmem).symm, hnode]
    · rw [hsame n fun he => hn (he ▸ hmem), hother n hnew]

/-- **`freeToList`** frees the nodes, and nothing else. -/
theorem freeToList_eq (h : Rcpts heap p ns es) (hnodup : ns.Nodup) (hrounds : ns.length ≤ rounds) :
    ∃ heap', freeToList rounds heap p = some heap' ∧
      ∀ n, heap'.get n = if n ∈ ns then none else heap.get n := by
  induction ns generalizing heap p es rounds with
  | nil =>
    cases h
    exact ⟨heap, by cases rounds <;> rfl, fun n => by simp⟩
  | cons m ns ih =>
    cases h with
    | cons hm hrest =>
      obtain ⟨hnot, hnodup⟩ := List.nodup_cons.1 hnodup
      obtain ⟨rounds, rfl⟩ := Nat.exists_eq_succ_of_ne_zero (Nat.ne_of_gt (Nat.lt_of_lt_of_le
        (Nat.succ_pos _) hrounds))
      obtain ⟨heap', hfree⟩ := Heap.free_isSome (h := heap) (n := m) (by rw [hm]; exact Option.some_ne_none _)
      obtain ⟨-, hget, -⟩ := Heap.free_some hfree
      have hrest' : Rcpts heap' _ ns _ := hrest.congr fun n hn => by
        rw [hget, Function.update_of_ne]
        rintro rfl
        exact hnot hn
      obtain ⟨heap'', hfree', hget'⟩ := ih hrest' hnodup (Nat.le_of_succ_le_succ hrounds)
      refine ⟨heap'', by rw [freeToList, hm, Option.bind_some, hfree, Option.bind_some, hfree'], ?_⟩
      intro n
      rw [hget', hget]
      by_cases hnm : n = m
      · subst hnm
        simp
      · simp [hnm]

/-- **`smtpRCPTTO`** reads the recipients off the nodes. -/
theorem smtpRCPTTO_eq (h : Rcpts heap p ns es) (hrounds : ns.length ≤ rounds) (msg : Bytes) (w : Session) :
    smtpRCPTTO msg heap rounds p w =
      some (SmtpProxy.smtpRCPTTO (es.map fun email => cstr (msg.drop email)) w) := by
  induction ns generalizing p es rounds w with
  | nil =>
    cases h
    cases rounds <;> rfl
  | cons m ns ih =>
    cases h with
    | cons hm hrest =>
      obtain ⟨rounds, rfl⟩ := Nat.exists_eq_succ_of_ne_zero (Nat.ne_of_gt (Nat.lt_of_lt_of_le
        (Nat.succ_pos _) hrounds))
      rw [smtpRCPTTO, hm, Option.bind_some, List.map_cons, SmtpProxy.smtpRCPTTO, Cmd.and]
      dsimp only
      rcases rcptTo _ w with ⟨_ | _, w'⟩
      · rfl
      · exact ih hrest (Nat.le_of_succ_le_succ hrounds) w'

/-! ## The message -/

theorem length_memset_le (m : Bytes) (off : ℕ) (c : UInt8) (n : ℕ) :
    (memset m off c n).length ≤ m.length + n := by
  simp only [memset, List.length_append, List.length_take, List.length_replicate, List.length_drop]
  omega

theorem grown_refl (base : Heap Rcpt) : Grown base base none [] [] :=
  ⟨.nil, List.nodup_nil, nofun, fun _ _ => rfl, Nat.le_refl _⟩

/-- The loop of `prepareSendMail` makes the nodes of the pointers it finds. -/
theorem rcptLoop_refines (fuel : ℕ) (msg : Bytes) (to_ : ℕ) (h : Grown base heap p ns es)
    (hrounds : es.length + fuel ≤ rounds) : ∃ heap' p' ns',
      rcptLoop rounds fuel msg to_ heap p = some ((SmtpProxy.rcptLoop fuel msg to_ es).1, heap', p') ∧
      Grown base heap' p' ns' (SmtpProxy.rcptLoop fuel msg to_ es).2 ∧
      (SmtpProxy.rcptLoop fuel msg to_ es).2.length ≤ es.length + fuel := by
  induction fuel generalizing msg to_ heap p ns es with
  | zero => exact ⟨heap, p, ns, rfl, h, Nat.le_refl _⟩
  | succ fuel ih =>
    have hroom : ns.length ≤ rounds := by
      have hlen := h.rcpts.length_eq
      omega
    obtain ⟨heap', p', hnew, hG⟩ := newTo_grown h hroom (to_ + 2)
    rw [rcptLoop, SmtpProxy.rcptLoop]
    simp only [hnew, Option.bind_some, newTo_eq]
    cases strstr ((memset msg to_ 0 2).drop (to_ + 2)) crlf with
    | none => exact ⟨heap', p', _, rfl, hG, by simp⟩
    | some k =>
      have hlen : (es ++ [to_ + 2]).length = es.length + 1 := by simp
      obtain ⟨heap'', p'', ns'', hloop, hG', hle⟩ := ih (memset msg to_ 0 2) (to_ + 2 + k) hG (by omega)
      exact ⟨heap'', p'', ns'', hloop, hG', Nat.le_trans hle (by omega)⟩

/-- What `prepareSendMail` leaves, but for the nodes. -/
def Prepared.Agrees (r : Prepared) (e : Envelope) : Prop :=
  r.ret = e.ret ∧ r.msg = e.msg ∧ r.from_ = e.from_ ∧ r.data = e.data ∧ r.err = e.err

/-- **`prepareSendMail`** makes a node for each recipient, and nothing else. -/
theorem prepareSendMail_refines {msg err : Bytes} {n : ℕ} (hrounds : msg.length + 8 ≤ rounds)
    (base : Heap Rcpt) : ∃ r ns, prepareSendMail rounds msg err n base = some r ∧
      r.Agrees (SmtpProxy.prepareSendMail msg err n) ∧
      Grown base r.heap r.toList ns (SmtpProxy.prepareSendMail msg err n).toList ∧ ns.length ≤ rounds ∧
      (r.ret = false → r.heap = base) := by
  rw [prepareSendMail, SmtpProxy.prepareSendMail]
  cases strstr msg dataMark with
  | none =>
    exact ⟨_, [], rfl, ⟨rfl, rfl, rfl, rfl, rfl⟩, grown_refl base, Nat.zero_le _, fun _ => rfl⟩
  | some p =>
    dsimp only
    cases strstr (memset msg p 0 8) crlf with
    | none =>
      exact ⟨_, [], rfl, ⟨rfl, rfl, rfl, rfl, rfl⟩, grown_refl base, Nat.zero_le _, fun _ => rfl⟩
    | some to_ =>
      dsimp only
      have hlen := length_memset_le msg p 0 8
      have hroom : ([] : List ℕ).length + (memset msg p 0 8).length ≤ rounds := by
        rw [List.length_nil]
        omega
      obtain ⟨heap', p', ns, hloop, hG, hle⟩ := rcptLoop_refines _ _ to_ (grown_refl base) hroom
      rw [hloop, Option.map_some]
      refine ⟨_, ns, rfl, ⟨rfl, rfl, rfl, rfl, rfl⟩, hG, ?_, fun hret => absurd hret.symm Bool.false_ne_true⟩
      rw [hG.rcpts.length_eq]
      exact Nat.le_trans hle hroom

/-- After `freeToList` the heap is as it was before `prepareSendMail`. -/
theorem Grown.freed (h : Grown base heap p ns es) (hrounds : ns.length ≤ rounds) :
    ∃ heap', freeToList rounds heap p = some heap' ∧ heap'.get = base.get := by
  obtain ⟨heap', hfree, hget⟩ := freeToList_eq h.rcpts h.nodup hrounds
  refine ⟨heap', hfree, funext fun n => ?_⟩
  rw [hget]
  by_cases hn : n ∈ ns
  · rw [if_pos hn, h.new n hn]
  · rw [if_neg hn, h.same n hn]

theorem tpSendMail_refines (h : Grown base heap p ns es) (hrounds : ns.length ≤ rounds) (tp : Tp)
    (msg data : Bytes) (how : GetConn) (w : Session) : tpSendMail rounds tp msg heap p data how w =
      some (SmtpProxy.tpSendMail tp (es.map fun email => cstr (msg.drop email)) data how w) := by
  rw [tpSendMail, tpSendMail_eq, transaction, ← Cmd.and_assoc]
  generalize (how.ready tp).and (smtpMAILFROM tp.name) = opened
  rw [Cmd.and]
  rcases opened w with ⟨_ | _, w'⟩
  · rfl
  · dsimp only
    rw [smtpRCPTTO_eq h.rcpts hrounds, Option.map_some, Cmd.and]
    rcases SmtpProxy.smtpRCPTTO _ w' with ⟨_ | _, w''⟩
    · rfl
    · rfl

/-- **`sendMail` on the nodes** makes of the session what it makes on the list, goes
    through no dead pointer, and leaves the heap as it was: what it has allocated for the
    recipients it has freed, once, whether the message is malformed, its transport
    unknown, or the server refuses or accepts it. -/
theorem sendMail_refines {msg : Bytes} (hrounds : msg.length + 8 ≤ rounds) (transports : List Tp)
    (how : GetConn) (w : Session) (base : Heap Rcpt) :
    ∃ heap, sendMail rounds transports msg how w base =
        some (SmtpProxy.sendMail transports msg how w, heap) ∧ heap.get = base.get := by
  obtain ⟨r, ns, hprep, ⟨hret, hmsg, hfrom, hdata, herr⟩, hG, hns, hbase⟩ :=
    @prepareSendMail_refines rounds msg w.err errlen hrounds base
  obtain ⟨heap', hfree, hget⟩ := hG.freed hns
  rw [sendMail, hprep, Option.bind_some, SmtpProxy.sendMail, hret, hmsg, hfrom, hdata]
  cases hok : (SmtpProxy.prepareSendMail msg w.err errlen).ret with
  | false =>
    rw [hok] at hret
    rw [herr, hbase hret]
    exact ⟨base, rfl, rfl⟩
  | true =>
    simp only [if_true, Envelope.sender]
    cases findTpByName transports _ with
    | none => exact ⟨heap', by rw [hfree, Option.map_some], hget⟩
    | some tp =>
      refine ⟨heap', ?_, hget⟩
      dsimp only
      rw [tpSendMail_refines hG hns, Option.bind_some, hfree, Option.map_some]
      rfl

end

/-- Two recipients, and a server that accepts them. -/
theorem sendMail_refines_two : ∃ w heap, sendMail 100 [tpPlain]
      (bytes "t\r\na\r\nb\r\nDATA\r\nx\r\n.\r\n" ++ [0]) .reused (acceptingSession 2) .empty = some (w, heap) ∧
    written w.log = [bytes "RSET\r\n", bytes "MAIL FROM:<t>\r\n", bytes "RCPT TO:<a>\r\n",
      bytes "RCPT TO:<b>\r\n", bytes "DATA\r\n", bytes "x\r\n.\r\n"] ∧ ∀ n, heap.get n = none := by
  obtain ⟨heap, hsend, hget⟩ := @sendMail_refines 100
    (bytes "t\r\na\r\nb\r\nDATA\r\nx\r\n.\r\n" ++ [0]) (by decide) [tpPlain] .reused (acceptingSession 2) .empty
  exact ⟨_, heap, hsend, by decide +kernel, fun n => by rw [hget]; rfl⟩

end RcptList

end SmtpProxy
