/-
  Reading messages from a client: the loop of `handleClient` (client.c).

  The thread reads into a buffer that it grows block by block, and takes what
  it has read for a complete message when the last read ends with CRLF.CRLF.
  `step` is one iteration of the loop for what `poll`, `read` and `write`
  return; a `read` is enabled when the kernel can return it (between one byte
  and `ptrlen` bytes).

  * `afterRead_at`: the effect of a read on the buffer that holds exactly what
    was read so far (`ReadBuf.at`), for arbitrary bytes;
  * `handleClient_reassembles`: NUL-free messages are given to `sendMail`
    unchanged, however they are cut into reads.
-/
import Mathlib.Data.List.Forall2
import Mathlib.Data.List.GetD
import SmtpProxy.Envelope
import SmtpProxy.Lib.Runs

namespace SmtpProxy

open CString Search

/-- `blksize` (8K) -/
def blksize : ℕ := 8192

/-- The local variables of `handleClient`; `ptr` is an offset into `buf`. -/
structure ReadBuf where
  buf : Bytes
  ptr : ℕ
  buflen : ℕ
  ptrlen : ℕ
  msglen : ℕ
  deriving DecidableEq

/-- The buffer set-up, also done after each message. -/
def ReadBuf.fresh : ReadBuf := ⟨List.replicate blksize 0, 0, blksize, blksize, 0⟩

/-- After `n = read(cl->fd, ptr, ptrlen)` has stored `bs` (`n = |bs| > 0`): the
    buffer of a complete message, or the variables for the next read. -/
def afterRead (st : ReadBuf) (bs : Bytes) : Bytes ⊕ ReadBuf :=
  let n := bs.length
  let buf := store st.buf st.ptr bs
  let msglen := st.msglen + n
  if 5 < msglen ∧ strncmp (buf.drop (st.ptr + n - 5)) endMark 5 then
    -- realloc by one byte when the message fills the buffer
    .inl (if st.buflen = msglen then buf ++ [0] else buf)
  else if buf.getD (st.buflen - 1) 0 ≠ 0 then
    -- buf not large enough
    .inr ⟨buf ++ List.replicate blksize 0, st.buflen, st.buflen + blksize, blksize, msglen⟩
  else .inr ⟨buf, st.ptr + n, st.buflen, st.ptrlen - n, msglen⟩

/-- What one iteration of the loop gets from the system: `poll` times out,
    fails, or returns without POLLIN; `read` returns `n ≤ 0`, or the bytes
    `bs`.  `env` is what `sendMail` meets if the message is complete, and
    `written` tells whether the reply is written to the client. -/
inductive ClientEvent (E : Type*) where
  | pollTimeout
  | pollError
  | noPollin
  | readEnd
  | read (bs : Bytes) (env : E) (written : Bool)

/-- A client thread: its variables (`none` after `pthread_exit`), and the
    buffers it has given to `sendMail`, each with what the call met. -/
structure ClientThread (E : Type*) where
  st : Option ReadBuf
  sent : List (Bytes × E)

namespace ClientThread
variable {E : Type*}

def init : ClientThread E := ⟨some .fresh, []⟩

/-- One iteration of the loop of `handleClient`. -/
def step (c : ClientThread E) (ev : ClientEvent E) : Option (ClientThread E) :=
  match c.st, ev with
  | none, _ => none
  | some st, .read bs env written =>
    if 0 < bs.length ∧ bs.length ≤ st.ptrlen then
      match afterRead st bs with
      | .inl buf => some ⟨if written then some .fresh else none, c.sent ++ [(buf, env)]⟩
      | .inr st' => some ⟨some st', c.sent⟩
    else none
  | some _, _ => some ⟨none, c.sent⟩

end ClientThread

/-! ## The buffer holds what was read -/

/-- The variables when `P` has been read and `k` bytes of the buffer are left. -/
def ReadBuf.at (P : Bytes) (k : ℕ) : ReadBuf :=
  ⟨P ++ List.replicate k 0, P.length, P.length + k, k, P.length⟩

theorem ReadBuf.fresh_eq : ReadBuf.fresh = .at [] blksize := by simp [fresh, ReadBuf.at]

/-- The comparison at the end of the last read. -/
theorem endMark_test {M : Bytes} {k : ℕ} (hM : 5 < M.length) :
    strncmp ((M ++ List.replicate k 0).drop (M.length - 5)) endMark 5 = true ↔ endMark <:+ M := by
  rw [List.drop_append_of_le_length (by omega)]
  have hlen : (M.drop (M.length - 5)).length = 5 := by simp only [List.length_drop]; omega
  rw [List.suffix_iff_eq_drop, show endMark.length = 5 from rfl, strncmp_iff,
    cstr_of_nulFree (show NulFree endMark by decide)]
  generalize hT : M.drop (M.length - 5) = T at hlen ⊢
  rw [show endMark.take 5 = endMark from rfl]
  constructor
  · intro h
    have hle : endMark.length ≤ (cstr (T ++ List.replicate k 0)).length := by
      rw [← h]; exact List.length_take_le' _ _
    have hpre : cstr (T ++ List.replicate k 0) <+: T ++ List.replicate k 0 :=
      List.takeWhile_prefix _
    have h5 : endMark <+: T ++ List.replicate k 0 := by
      rw [← h]; exact (List.take_prefix _ _).trans hpre
    have := List.prefix_of_prefix_length_le h5 (List.prefix_append _ _) (by rw [hlen]; rfl)
    exact this.eq_of_length (by rw [hlen]; rfl)
  · rintro rfl
    have : cstr (endMark ++ List.replicate k 0) = endMark := by
      cases k with
      | zero => rfl
      | succ k => exact cstr_append_zero (by decide) _
    rw [this]; rfl

theorem store_at {P bs : Bytes} {k : ℕ} (h : bs.length ≤ k) :
    store (P ++ List.replicate k 0) P.length bs =
      P ++ bs ++ List.replicate (k - bs.length) 0 := by
  have hk : List.replicate k (0 : UInt8) =
      List.replicate bs.length 0 ++ List.replicate (k - bs.length) 0 := by
    rw [List.replicate_append_replicate]; congr 1; omega
  rw [hk, store_append _ _ (by simp), List.append_assoc]

/-- The buffer is taken for full when its last byte is not NUL. -/
theorem full_test {M : Bytes} {j : ℕ} (hM : M ≠ []) :
    (M ++ List.replicate j 0).getD (M.length + j - 1) 0 ≠ 0 ↔ j = 0 ∧ M.getLast hM ≠ 0 := by
  have hpos := List.length_pos_iff.2 hM
  cases j with
  | zero =>
    rw [List.replicate_zero, List.append_nil, Nat.add_zero, List.getD_eq_getElem _ _ (by omega),
      List.getLast_eq_getElem]
    simp
  | succ j => simp

/-- The bytes read so far are a complete message. -/
def Complete (M : Bytes) : Prop := 5 < M.length ∧ endMark <:+ M

instance (M : Bytes) : Decidable (Complete M) := inferInstanceAs (Decidable (_ ∧ _))

/-- **The effect of a read**, for arbitrary bytes. -/
theorem afterRead_at {P bs : Bytes} {k : ℕ} (h0 : 0 < bs.length) (hk : bs.length ≤ k) :
    (Complete (P ++ bs) ∧
      ∃ j, afterRead (.at P k) bs = .inl (P ++ bs ++ List.replicate (j + 1) 0)) ∨
    (¬ Complete (P ++ bs) ∧ ∃ j, afterRead (.at P k) bs = .inr (.at (P ++ bs) j) ∧
      (j = 0 → ∃ hM : P ++ bs ≠ [], (P ++ bs).getLast hM = 0)) := by
  have hne : P ++ bs ≠ [] := by
    intro h
    have := congrArg List.length h
    simp only [List.length_append, List.length_nil] at this
    omega
  have hlen : (P ++ bs).length = P.length + bs.length := List.length_append
  have htest : 5 < P.length + bs.length ∧ strncmp ((P ++ bs ++
      List.replicate (k - bs.length) 0).drop (P.length + bs.length - 5)) endMark 5 = true ↔
      Complete (P ++ bs) := by
    rw [← hlen]
    exact and_congr_right fun h => endMark_test h
  have hfull : (P ++ bs ++ List.replicate (k - bs.length) 0).getD (P.length + k - 1) 0 ≠ 0 ↔
      k - bs.length = 0 ∧ (P ++ bs).getLast hne ≠ 0 := by
    rw [← full_test hne, hlen]
    congr! 3
    omega
  simp only [afterRead, ReadBuf.at, store_at hk, htest, hfull]
  by_cases hc : Complete (P ++ bs)
  · refine Or.inl ⟨hc, ?_⟩
    rw [if_pos hc]
    by_cases hkb : P.length + k = P.length + bs.length
    · refine ⟨0, ?_⟩
      rw [if_pos hkb, show k - bs.length = 0 by omega]
      simp
    · refine ⟨k - bs.length - 1, ?_⟩
      rw [if_neg hkb, show k - bs.length - 1 + 1 = k - bs.length by omega]
  · refine Or.inr ⟨hc, ?_⟩
    rw [if_neg hc]
    by_cases hf : k - bs.length = 0 ∧ (P ++ bs).getLast hne ≠ 0
    · refine ⟨blksize, ?_, fun h => absurd h (by decide)⟩
      rw [if_pos hf, hf.1, show P.length + k = (P ++ bs).length by omega, hlen]
      simp
    · refine ⟨k - bs.length, ?_, fun h => ⟨hne, ?_⟩⟩
      · rw [if_neg hf, hlen, show P.length + bs.length + (k - bs.length) = P.length + k by omega]
      · by_contra hl; exact hf ⟨h, hl⟩

/-! ## Framing at the reads

What the loop is for: it cuts the stream after each read that ends a
message. -/

/-- One read: `f.1` are the messages so far, `f.2` the bytes of the next one. -/
def frame (f : List Bytes × Bytes) (bs : Bytes) : List Bytes × Bytes :=
  if Complete (f.2 ++ bs) then (f.1 ++ [f.2 ++ bs], []) else (f.1, f.2 ++ bs)

/-- The messages among the reads, and the bytes after the last of them. -/
def frames (reads : List Bytes) : List Bytes × Bytes := reads.foldl frame ([], [])

theorem frames_snoc (reads : List Bytes) (bs : Bytes) :
    frames (reads ++ [bs]) = frame (frames reads) bs := by simp [frames]

/-- Reads that do not complete a message are kept. -/
theorem foldl_frame_open (ms : List Bytes) : ∀ (cs : List Bytes) (P : Bytes),
    (∀ Q, P <+: Q → Q <+: P ++ cs.flatten → ¬ Complete Q) →
      cs.foldl frame (ms, P) = (ms, P ++ cs.flatten)
  | [], P, _ => by simp
  | c :: cs, P, h => by
    have hc : frame (ms, P) c = (ms, P ++ c) := by
      rw [frame, if_neg (h (P ++ c) (List.prefix_append _ _) (by simp))]
    rw [List.foldl_cons, hc, foldl_frame_open ms cs (P ++ c) fun Q hP hQ =>
      h Q ((List.prefix_append _ _).trans hP) (by simpa using hQ)]
    simp

/-- A message in which CRLF.CRLF occurs only at its end is complete only as a whole. -/
theorem complete_prefix {M Q : Bytes} (hM : EndsOnce endMark M) (hQ : Q <+: M) (hc : Complete Q) :
    Q = M := by
  obtain ⟨t, rfl⟩ := hQ
  obtain ⟨a, rfl⟩ := hc.2
  have := (endsOnce_iff.1 hM).2 a t rfl
  rw [this, List.append_nil]

/-- The reads of one message give that message. -/
theorem foldl_frame_message {M : Bytes} (hM : EndsOnce endMark M) (h5 : 5 < M.length)
    (ms : List Bytes) {cs : List Bytes} (hcs : cs.flatten = M) (hne : ∀ c ∈ cs, c ≠ []) :
    cs.foldl frame (ms, []) = (ms ++ [M], []) := by
  rcases List.eq_nil_or_concat cs with rfl | ⟨cs, c, rfl⟩
  · exact absurd h5 (by simp [← hcs])
  · rw [List.concat_eq_append] at hcs hne ⊢
    have hc : c ≠ [] := hne c (by simp)
    have hflat : cs.flatten ++ c = M := by simpa using hcs
    have hopen : cs.foldl frame (ms, []) = (ms, cs.flatten) := by
      refine foldl_frame_open ms cs [] fun Q _ hQ hcomp => ?_
      have hle := hQ.length_le
      have heq := complete_prefix hM (hQ.trans ⟨c, by simpa using hflat⟩) hcomp
      have := congrArg List.length hflat
      have := List.length_pos_iff.2 hc
      simp only [heq, List.nil_append, List.length_append] at *
      omega
    rw [List.foldl_append, hopen, List.foldl_cons, List.foldl_nil, frame, hflat,
      if_pos ⟨h5, hM.suffix⟩]

/-- **Messages cut into reads are framed back.** -/
theorem frames_messages {Ms : List Bytes} {css : List (List Bytes)}
    (h : css.map List.flatten = Ms) (hne : ∀ cs ∈ css, ∀ c ∈ cs, c ≠ [])
    (hM : ∀ M ∈ Ms, EndsOnce endMark M ∧ 5 < M.length) : frames css.flatten = (Ms, []) := by
  subst h
  have key : ∀ ms, css.flatten.foldl frame (ms, []) = (ms ++ css.map List.flatten, []) := by
    induction css with
    | nil => intro ms; simp
    | cons cs css ih =>
      intro ms
      have hcs := hM cs.flatten (by simp)
      rw [List.flatten_cons, List.foldl_append,
        foldl_frame_message hcs.1 hcs.2 ms rfl (hne cs (by simp)),
        ih (fun cs' h' => hne cs' (List.mem_cons_of_mem _ h'))
          fun M' h' => hM M' (List.mem_cons_of_mem _ h')]
      simp
  simpa [frames] using key []

/-! ## The loop refines the framing -/

section
variable {E : Type*}

/-- The bytes of an iteration that reads. -/
def ClientEvent.bytes? : ClientEvent E → Option Bytes
  | .read bs _ _ => some bs
  | _ => none

/-- The reads of a run. -/
def readsOf (p : List (ClientThread E × ClientEvent E)) : List Bytes :=
  p.filterMap fun x => x.2.bytes?

/-- What the buffer given to `sendMail` holds for the message `M`. -/
def Holds (M buf : Bytes) : Prop := ∃ j, buf = M ++ List.replicate (j + 1) 0

theorem holds_zero (M : Bytes) : Holds M (M ++ [0]) := ⟨0, rfl⟩

theorem Holds.cstr_eq {M buf : Bytes} (h : Holds M buf) (hM : NulFree M) : cstr buf = M := by
  obtain ⟨j, rfl⟩ := h
  exact cstr_append_zero hM _

/-- The state of a client thread after the reads with framing `f`. -/
structure Framed (f : List Bytes × Bytes) (c : ClientThread E) : Prop where
  sent : List.Forall₂ (fun M x => Holds M x.1) f.1 c.sent
  buf : ∀ st, c.st = some st → ∃ k, st = .at f.2 k ∧
    (k = 0 → ∃ hM : f.2 ≠ [], f.2.getLast hM = 0)

theorem framed_init : Framed (frames []) (ClientThread.init (E := E)) := by
  refine ⟨.nil, fun st hst => ⟨blksize, ?_, fun h => absurd h (by decide)⟩⟩
  rw [← Option.some.inj hst]; exact ReadBuf.fresh_eq

/-- **One iteration refines the framing of its read.** -/
theorem framed_step {f : List Bytes × Bytes} {c c' : ClientThread E} {ev : ClientEvent E}
    (h : Framed f c) (hs : c.step ev = some c') :
    Framed (ev.bytes?.toList.foldl frame f) c' := by
  obtain ⟨_ | st, sent⟩ := c
  · cases hs
  cases ev with
  | read bs env written =>
    obtain ⟨k, rfl, hk⟩ := h.buf st rfl
    by_cases hlen : 0 < bs.length ∧ bs.length ≤ k
    swap
    · exact absurd hs (by simp [ClientThread.step, ReadBuf.at, hlen])
    replace hs : (match afterRead (.at f.2 k) bs with
      | .inl buf => some ⟨if written then some .fresh else none, sent ++ [(buf, env)]⟩
      | .inr st' => some ⟨some st', sent⟩) = some c' := by
      simpa only [ClientThread.step, ReadBuf.at, hlen, and_self, if_true] using hs
    show Framed (frame f bs) c'
    rcases afterRead_at (P := f.2) hlen.1 hlen.2 with ⟨hc, j, hj⟩ | ⟨hc, j, hj, hj0⟩
    · rw [hj] at hs
      obtain rfl := Option.some.inj hs
      rw [frame, if_pos hc]
      refine ⟨?_, fun st hst => ?_⟩
      · exact List.rel_append h.sent (.cons ⟨j, rfl⟩ .nil)
      · cases written with
        | false => cases hst
        | true => exact (framed_init (E := E)).buf st hst
    · rw [hj] at hs
      obtain rfl := Option.some.inj hs
      rw [frame, if_neg hc]
      refine ⟨h.sent, fun st hst => ⟨j, (Option.some.inj hst).symm, hj0⟩⟩
  | _ =>
    obtain rfl := Option.some.inj hs
    exact ⟨h.sent, fun st hst => by cases hst⟩

/-- **The loop refines the framing**, for every run and all bytes. -/
theorem framed_of_path {p : List (ClientThread E × ClientEvent E)} {c : ClientThread E}
    (h : Runs.Path ClientThread.step .init p c) : Framed (frames (readsOf p)) c := by
  induction h with
  | nil => exact framed_init
  | @snoc p c c' ev _ hs ih =>
    have := framed_step ih hs
    rw [readsOf, List.filterMap_append, frames, List.foldl_append]
    cases ev <;> exact this

/-- The bytes of an unfinished message are bytes of the reads. -/
theorem frames_sub (reads : List Bytes) : ∀ b ∈ (frames reads).2, b ∈ reads.flatten := by
  induction reads using List.reverseRecOn with
  | nil => intro b hb; simp [frames] at hb
  | append_singleton reads bs ih =>
    intro b hb
    rw [frames_snoc, frame] at hb
    rw [List.flatten_append, List.flatten_singleton]
    split at hb
    · simp at hb
    · rcases List.mem_append.1 hb with hb | hb
      · exact List.mem_append_left _ (ih b hb)
      · exact List.mem_append_right _ hb

/-- And not more of them. -/
theorem frames_length (reads : List Bytes) : (frames reads).2.length ≤ reads.flatten.length := by
  induction reads using List.reverseRecOn with
  | nil => exact Nat.le_refl _
  | append_singleton reads bs ih =>
    rw [frames_snoc, frame, List.flatten_append, List.flatten_singleton, List.length_append]
    split
    · exact Nat.zero_le _
    · rw [List.length_append]
      omega

/-- A read that is taken returns at least one byte. -/
theorem step_read_ne_nil {c c' : ClientThread E} {bs : Bytes} {env : E} {w : Bool}
    (hs : c.step (.read bs env w) = some c') : bs ≠ [] := by
  rintro rfl
  obtain ⟨_ | st, sent⟩ := c <;> simp [ClientThread.step] at hs

/-- A client that reads and is answered goes on. -/
theorem step_read_st {c c' : ClientThread E} {bs : Bytes} {env : E}
    (hs : c.step (.read bs env true) = some c') : c'.st ≠ none := by
  obtain ⟨_ | st, sent⟩ := c
  · cases hs
  simp only [ClientThread.step, if_true] at hs
  split at hs
  · split at hs <;> (obtain rfl := Option.some.inj hs; simp)
  · cases hs

/-- The variables before a read of NUL-free data. -/
structure ReadBuf.Ready (st : ReadBuf) : Prop where
  ptr : st.ptr = st.msglen
  ptrlen : st.ptrlen = st.buflen - st.msglen
  room : 0 < st.ptrlen
  size : st.buf.length = st.buflen
  tail : ∀ b ∈ st.buf.drop st.ptr, b = 0

theorem ReadBuf.ready_at {P : Bytes} {k : ℕ} (hk : 0 < k) : (ReadBuf.at P k).Ready where
  ptr := rfl
  ptrlen := by simp [ReadBuf.at]
  room := hk
  size := by simp [ReadBuf.at]
  tail := by
    intro b hb
    rw [ReadBuf.at, List.drop_left] at hb
    exact (List.mem_replicate.1 hb).2

/-- After NUL-free reads the buffer has room for the next one. -/
theorem Framed.ready {reads : List Bytes} {c : ClientThread E} {st : ReadBuf}
    (h : Framed (frames reads) c) (h0 : NulFree reads.flatten) (hst : c.st = some st) :
    st.Ready := by
  obtain ⟨k, rfl, hk⟩ := h.buf st hst
  refine ReadBuf.ready_at (Nat.pos_of_ne_zero fun hk0 => ?_)
  obtain ⟨hne, hlast⟩ := hk hk0
  exact h0 (frames_sub reads 0 (hlast ▸ List.getLast_mem hne))

/-- In the run `p` every iteration reads, and every reply is written. -/
def Answered (p : List (ClientThread E × ClientEvent E)) : Prop :=
  ∀ x ∈ p, ∃ bs env, x.2 = .read bs env true

theorem readsOf_snoc (p : List (ClientThread E × ClientEvent E)) (c : ClientThread E) (bs : Bytes)
    (env : E) (w : Bool) : readsOf (p ++ [(c, .read bs env w)]) = readsOf p ++ [bs] := by
  rw [readsOf, List.filterMap_append]; rfl

/-- A read that is performed returns something. -/
theorem readsOf_ne_nil {p : List (ClientThread E × ClientEvent E)} {c : ClientThread E}
    (hp : Runs.Path ClientThread.step .init p c) : ∀ bs ∈ readsOf p, bs ≠ [] := by
  induction hp with
  | nil => simp [readsOf]
  | @snoc p c c' ev hp hs ih =>
    intro b hb
    rw [readsOf, List.filterMap_append] at hb
    rcases List.mem_append.1 hb with hb | hb
    · exact ih b hb
    · cases ev with
      | read bs env w =>
        rw [List.mem_singleton.1 hb]
        exact step_read_ne_nil hs
      | _ => simp [ClientEvent.bytes?] at hb

/-- Along such a run the client goes on. -/
theorem Answered.alive {p : List (ClientThread E × ClientEvent E)} {c : ClientThread E}
    (hp : Runs.Path ClientThread.step .init p c) (h : Answered p) : c.st ≠ none := by
  cases hp with
  | nil => simp [ClientThread.init]
  | @snoc p c _ ev hp hs =>
    obtain ⟨bs, env, rfl⟩ := h _ (List.mem_append_right _ (List.mem_singleton_self _))
    exact step_read_st hs

/-- **Message reassembly.**  A client that sends NUL-free messages, each cut
    into reads anyhow, has `sendMail` called once for each, on exactly that
    message, and before every read the buffer is in order. -/
theorem handleClient_reassembles {Ms : List Bytes} {css : List (List Bytes)}
    {p : List (ClientThread E × ClientEvent E)} {c : ClientThread E}
    (hMs : ∀ M ∈ Ms, NulFree M ∧ 5 < M.length ∧ EndsOnce endMark M)
    (hcs : css.map List.flatten = Ms)
    (hp : Runs.Path ClientThread.step .init p c) (ha : Answered p)
    (hr : readsOf p = css.flatten) :
    List.Forall₂ (fun M x => ∃ j, x.1 = M ++ List.replicate (j + 1) 0) Ms c.sent ∧
    List.Forall₂ (fun M x => cstr x.1 = M) Ms c.sent ∧
    c.sent.length = Ms.length ∧
    ∀ t ∈ Runs.visited p c, ∃ st, t.st = some st ∧ st.Ready := by
  have hne := readsOf_ne_nil hp
  rw [hr] at hne
  have hnul : NulFree (readsOf p).flatten := by
    rw [hr]
    intro h
    obtain ⟨bs, hbs, h0⟩ := List.mem_flatten.1 h
    obtain ⟨cs, hcs', hbs⟩ := List.mem_flatten.1 hbs
    have hM : cs.flatten ∈ Ms := hcs ▸ List.mem_map_of_mem hcs'
    exact (hMs _ hM).1 (List.mem_flatten.2 ⟨bs, hbs, h0⟩)
  have hframes : frames (readsOf p) = (Ms, []) := by
    rw [hr]
    refine frames_messages hcs (fun cs h c hc => hne c (List.mem_flatten.2 ⟨cs, h, hc⟩)) ?_
    exact fun M hM => ⟨(hMs M hM).2.2, (hMs M hM).2.1⟩
  have hframed := framed_of_path hp
  rw [hframes] at hframed
  refine ⟨hframed.sent, ?_, hframed.sent.length_eq.symm, fun t ht => ?_⟩
  · refine (List.forall₂_and_left _ _ |>.2 ⟨fun M hM => (hMs M hM).1, hframed.sent⟩).imp ?_
    exact fun M x h => h.2.cstr_eq h.1
  · obtain ⟨q, hq, hpath⟩ := hp.of_mem_visited t ht
    have haq : Answered q := fun x hx => ha x (hq.subset hx)
    obtain ⟨st, hst⟩ := Option.ne_none_iff_exists'.1 (haq.alive hpath)
    obtain ⟨rest, rfl⟩ := hq
    have h0 : NulFree (readsOf q).flatten := by
      rw [readsOf, List.filterMap_append, List.flatten_append] at hnul
      exact (nulFree_append.1 hnul).1
    exact ⟨st, hst, (framed_of_path hpath).ready h0 hst⟩

end

/-- A complete message can be read in one piece. -/
theorem path_of_complete {E : Type*} {M : Bytes} (hc : Complete M) (hlen : M.length ≤ blksize)
    (env : E) : ∃ (j : ℕ) (c : ClientThread E), c.sent = [(M ++ List.replicate (j + 1) 0, env)] ∧
      Runs.Path ClientThread.step .init [(.init, .read M env true)] c := by
  have hpos : 0 < M.length := Nat.lt_of_le_of_lt (Nat.zero_le 5) hc.1
  rcases afterRead_at (P := []) hpos hlen with ⟨-, j, hj⟩ | ⟨hn, -⟩
  · have hstep : ClientThread.init.step (.read M env true) =
        some ⟨some .fresh, [(M ++ List.replicate (j + 1) 0, env)]⟩ := by
      simp only [ClientThread.step, ClientThread.init, ReadBuf.fresh_eq, hj]
      exact if_pos ⟨hpos, hlen⟩
    exact ⟨j, _, rfl, Runs.Path.nil.snoc hstep⟩
  · exact absurd hc hn

/-- The buffer does not get smaller. -/
theorem afterRead_buflen {st st' : ReadBuf} {bs : Bytes} (h : afterRead st bs = .inr st') :
    st.buflen ≤ st'.buflen := by
  simp only [afterRead] at h
  split_ifs at h
  · obtain rfl := Sum.inr.inj h
    exact Nat.le_add_right _ _
  · obtain rfl := Sum.inr.inj h
    exact Nat.le_refl _

/-- What fits into the first block can be read in any pieces. -/
theorem path_of_reads {E : Type*} (env : E) (reads : List Bytes) (hne : ∀ bs ∈ reads, bs ≠ [])
    (hlen : reads.flatten.length ≤ blksize) : ∃ (p : List (ClientThread E × ClientEvent E)) (c : ClientThread E),
      Runs.Path ClientThread.step .init p c ∧ Answered p ∧ readsOf p = reads ∧
        (∀ x ∈ c.sent, x.2 = env) ∧
        ∃ k, c.st = some (.at (frames reads).2 k) ∧ blksize ≤ (frames reads).2.length + k := by
  induction reads using List.reverseRecOn with
  | nil =>
    refine ⟨[], .init, .nil, nofun, rfl, nofun, blksize, ?_, Nat.le_add_left _ _⟩
    exact congrArg some ReadBuf.fresh_eq
  | append_singleton reads bs ih =>
    obtain ⟨hreads, hbs⟩ := List.forall_mem_append.1 hne
    rw [List.flatten_append, List.flatten_singleton, List.length_append] at hlen
    obtain ⟨p, c, hp, ha, hr, hsent, k, hst, hroom⟩ := ih hreads (by omega)
    have hpos : 0 < bs.length := List.length_pos_iff.2 (hbs bs (by simp))
    have hk : bs.length ≤ k := by
      have := frames_length reads
      omega
    obtain ⟨st, sent⟩ := c
    obtain rfl : st = _ := hst
    have hstep : ClientThread.step ⟨some (.at (frames reads).2 k), sent⟩ (.read bs env true) =
        match afterRead (.at (frames reads).2 k) bs with
        | .inl buf => some ⟨some .fresh, sent ++ [(buf, env)]⟩
        | .inr st' => some ⟨some st', sent⟩ := if_pos ⟨hpos, hk⟩
    rw [frames_snoc, frame]
    have hans : ∀ c : ClientThread E, Answered (p ++ [(c, .read bs env true)]) :=
      fun c => List.forall_mem_append.2 ⟨ha, by simp⟩
    rcases afterRead_at (P := (frames reads).2) hpos hk with ⟨hc, j, hj⟩ | ⟨hc, j, hj, -⟩
    · rw [hj] at hstep
      refine ⟨_, _, hp.snoc hstep, hans _, by rw [readsOf_snoc, hr], ?_, blksize, ?_, ?_⟩
      · exact List.forall_mem_append.2 ⟨hsent, by simp⟩
      · rw [if_pos hc, ReadBuf.fresh_eq]
      · exact Nat.le_add_left _ _
    · rw [hj] at hstep
      have hbuf := afterRead_buflen hj
      refine ⟨_, _, hp.snoc hstep, hans _, by rw [readsOf_snoc, hr], hsent, j, ?_, ?_⟩
      · rw [if_neg hc]
      · rw [if_neg hc]
        exact hroom.trans hbuf

/-- The messages `a CRLF . CRLF` and `b CRLF . CRLF`, the first one read in two pieces
    that are cut inside the mark, the second one in one. -/
theorem handleClient_reassembles_two : ∃ (p : List (ClientThread Unit × ClientEvent Unit))
    (c : ClientThread Unit),
    Runs.Path ClientThread.step .init p c ∧
      readsOf p = [[97, 13, 10, 46], [13, 10], 98 :: endMark] ∧
      c.sent.map (fun x => cstr x.1) = [97 :: endMark, 98 :: endMark] := by
  obtain ⟨p, c, hp, ha, hr, -⟩ := path_of_reads () [[97, 13, 10, 46], [13, 10], 98 :: endMark]
    (by decide) (by decide)
  have hM : ∀ M ∈ [97 :: endMark, 98 :: endMark], NulFree M ∧ 5 < M.length ∧ EndsOnce endMark M := by decide
  have hcs : [[[97, 13, 10, 46], [13, 10]], [98 :: endMark]].map List.flatten =
      [97 :: endMark, 98 :: endMark] := rfl
  obtain ⟨-, hall, -⟩ := handleClient_reassembles hM hcs hp ha hr
  refine ⟨p, c, hp, hr, ?_⟩
  rw [← List.forall₂_eq_eq_eq, List.forall₂_map_left_iff]
  exact hall.flip

end SmtpProxy
