/-
  The clean-up of the client threads, and `abortClients` (client.c).

  `handleClient` owns the descriptor, the `cl_t`, its entry in `clients` and the
  message buffer.  Around `poll` and `read` it pushes handlers that release
  them when a cancellation takes effect or `pthread_exit` is called; elsewhere it
  disables cancellation, or releases them by hand.  A step is a statement of a
  thread at which others can see something or a cancellation can act, or a step
  of `abortClients`; `pthread_dllistDelete` is one up to its unlock
  (PthreadDllist is about what is inside).

  * `ClThread.run`, `ClThread.exit`: the statements of `handleClient`, and what a
    cancellation and `pthread_exit` make of a thread; `Clients.step`: one step;
  * `represents_append`, `represents_delete`: the list is the one that the
    pointers of pthread_dllist.c represent;
  * `ClThread.Sound`: all that is still to be released will be, once;
  * `Clients.Torn`: a cancellation acts in the `close` of a clean-up by hand;
  * `clean_iff`: all is released once, and `abortClients` waits for living
    threads only, iff that does not happen.
-/
import SmtpProxy.Framing
import SmtpProxy.Lib.Ledger
import SmtpProxy.Pool.State
import SmtpProxy.PthreadDllist.Chain

namespace SmtpProxy

open CString
open Ledger (Custody Accounts)

/-- What a client thread releases. -/
inductive ClRes where
  | fd  -- `cl->fd`
  | entry  -- its node in `clients`
  | cl  -- the `cl_t`
  | buf (k : ℕ)  -- the buffers, in the order of their allocation
  deriving DecidableEq

/-- The statements of `handleClient` and its clean-up. -/
inductive ClStmt where
  | poll
  | read
  | sendMail  -- from the test of `blocked` to the return of `sendMail`
  | write
  | freeBuf (k : ℕ)  -- `free(buf)`, with this buffer
  | close
  | delete  -- `pthread_dllistDelete(clients, cl)` up to its unlock
  | signal  -- its `pthread_cond_signal(&clients->cond)`
  | freeCl  -- `free(cl)`
  | exit  -- `pthread_exit(NULL)`
  deriving DecidableEq

/-- What a call returns: `poll` 0, less, or more (with POLLIN or without); `read`
    nothing or bytes; `write` -1 or not. -/
inductive ClIo where
  | timeout
  | error
  | ready (pollin : Bool)
  | readEnd
  | bytes (bs : Bytes)
  | written (ok : Bool)
  | done
  deriving DecidableEq

/-- A cancellation that is pending acts here, if it is enabled. -/
def ClStmt.cancels : ClStmt → Bool
  | .poll | .read | .write | .close => true
  | _ => false

/-- What a statement of the clean-up releases. -/
def ClStmt.gives : ClStmt → List (Ledger.Move ClRes)
  | .freeBuf k => [.gave (.buf k)]
  | .close => [.gave .fd]
  | .delete => [.gave .entry]
  | .freeCl => [.gave .cl]
  | _ => []

/-- A pushed handler. -/
inductive Cleanup where
  | freeBuf (k : ℕ)
  | freeCl
  deriving DecidableEq

/-- `freeCl(cl)` -/
def freeCl : List ClStmt := [.close, .delete, .signal, .freeCl]

def Cleanup.body : Cleanup → List ClStmt
  | .freeBuf k => [.freeBuf k]
  | .freeCl => SmtpProxy.freeCl

/-- A client thread: what it is about to do, its handlers (the last one first), its
    cancelability, `pthread_cancel` has been called for it; its variables and the name of
    its buffer; what it has taken and released.  It has ended when nothing is left to do. -/
structure ClThread where
  todo : List ClStmt
  handlers : List Cleanup
  enabled : Bool
  pending : Bool
  st : ReadBuf
  buf : ℕ
  moves : List (Ledger.Move ClRes)
  deriving DecidableEq

namespace ClThread

/-- As `newCl` and the beginning of `handleClient` leave it, at its first `poll`. -/
def start : ClThread :=
  ⟨[.poll], [.freeBuf 0, .freeCl], true, false, .fresh, 0,
    [.took .fd, .took .cl, .took .entry, .took (.buf 0)]⟩

section
variable (t : ClThread)

/-- `pthread_cleanup_push(freeCl, cl); pthread_cleanup_push(freeBuf, buf)` -/
def push : ClThread := { t with handlers := .freeBuf t.buf :: .freeCl :: t.handlers }

/-- `pthread_cleanup_pop(0)`, twice -/
def pop : ClThread := { t with handlers := t.handlers.drop 2 }

/-- `pthread_exit`, also for a cancellation: the handlers run, without cancellation. -/
def exit : ClThread :=
  { t with todo := t.handlers.flatMap Cleanup.body, handlers := [], enabled := false }

/-- `free(buf); freeCl(cl); pthread_exit(NULL)` -/
def byHand : ClThread := { t with todo := .freeBuf t.buf :: freeCl ++ [.exit] }

/-- `buf` is freed, or moved by `realloc`, and there is a new one. -/
def newBuf : ClThread :=
  { t with buf := t.buf + 1, moves := t.moves ++ [.gave (.buf t.buf), .took (.buf (t.buf + 1))] }

/-- At the top of the loop. -/
def loop (st : ReadBuf) : ClThread := { t with todo := [.poll], st := st }.push

/-- A statement of the clean-up. -/
def next (c : ClStmt) : ClThread := { t with todo := t.todo.tail, moves := t.moves ++ c.gives }

/-- A statement is executed. -/
def run (io : ClIo) : ClStmt → Option ClThread
  | .poll => match io with
    | .timeout | .error => some t.exit
    | .ready pollin => some (if pollin then { t.pop.push with todo := [.read] } else t.pop.byHand)
    | _ => none
  | .read => match io with
    | .readEnd => some t.exit
    | .bytes bs =>
      if 0 < bs.length ∧ bs.length ≤ t.st.ptrlen then
        let t := t.pop
        match afterRead t.st bs with
        | .inl _ =>
          -- a complete message; the buffer may get room for its NUL
          let t := if t.st.buflen = t.st.msglen + bs.length then t.newBuf else t
          some { t with todo := [.sendMail, .write], enabled := false }
        | .inr st => some ((if st.buflen ≠ t.st.buflen then t.newBuf else t).loop st)
      else none
    | _ => none
  | .write => match io with
    | .written true => some ({ t with enabled := true }.newBuf.loop .fresh)
    | .written false => some t.byHand
    | _ => none
  | .exit => some t.exit
  | c => if io = .done then some (t.next c) else none

end

end ClThread

/-- Where the main thread is in `abortClients`. -/
inductive AbortClientsPc where
  | out
  | visit (rest : List ℕ)  -- in its visit, with the lock; the entries to come
  | test  -- before the lock of its wait
  | wait
  | woken
  | done
  deriving DecidableEq

/-- The client threads, the list `clients` (by its threads), and the main thread. -/
structure Clients where
  threads : List ClThread
  list : Dllist
  abort : AbortClientsPc
  deriving DecidableEq

/-- What is scheduled. -/
inductive ClientsAct where
  | accept  -- `newCl` and `pthread_create`
  | abort  -- a step of `abortClients`
  | spurious  -- its wait returns without a signal
  | go (i : ℕ) (io : ClIo)  -- the thread `i` executes a statement
  | cancelled (i : ℕ)  -- its cancellation acts
  deriving DecidableEq

namespace Clients

def init : Clients := ⟨[], ⟨[], 0⟩, .out⟩

section
variable (s : Clients)

def setThread (i : ℕ) (t : ClThread) : Clients := { s with threads := s.threads.set i t }

/-- `pthread_cancel(cl->tid)` -/
def abortCl (i : ℕ) : Clients :=
  { s with threads := s.threads.modify i fun t => { t with pending := true } }

/-- A step of `abortClients`. -/
def abortStep : Option Clients :=
  match s.abort with
  | .out => some { s with abort := .visit s.list.nodes }
  | .visit [] => some { s with abort := .test }
  | .visit (i :: rest) => some { s.abortCl i with abort := .visit rest }
  | .test | .woken => some { s with abort := if s.list.count > 0 then .wait else .done }
  | .wait | .done => none

/-- What a statement of the thread `i` does to the others: it deletes its entry, which
    needs the lock, or wakes the main thread. -/
def shared (i : ℕ) : ClStmt → Option Clients
  | .delete => match s.abort with
    | .visit _ => none
    | _ => some { s with list := dllistDelete s.list i }
  | .signal => some { s with abort := if s.abort = .wait then .woken else s.abort }
  | _ => some s

/-- One step. -/
def step : ClientsAct → Option Clients
  | .accept =>
    if s.abort = .out then
      some { s with
        threads := s.threads ++ [.start]
        list := dllistAppend s.list s.threads.length }
    else none
  | .abort => s.abortStep
  | .spurious => if s.abort = .wait then some { s with abort := .woken } else none
  | .go i io => s.threads[i]?.bind fun t => t.todo.head?.bind fun c =>
    (t.run io c).bind fun t => (s.shared i c).map fun s => s.setThread i t
  | .cancelled i => s.threads[i]?.bind fun t => t.todo.head?.bind fun c =>
    if c.cancels ∧ t.enabled ∧ t.pending then some (s.setThread i t.exit) else none

end

end Clients

/-! ## The list of the clients -/

/-- The pointers represent the list, each entry under the name of its node. -/
def PthreadDllist.Represents (s : PthreadDllist) (l : Dllist) : Prop :=
  s.Shape l.nodes ∧ s.count = l.count

theorem represents_append {s : PthreadDllist} {l : Dllist} (h : s.Represents l) (data : ℕ) :
    ∃ t, s.linkNode data = some t ∧ t.Represents (dllistAppend l s.heap.fresh) := by
  obtain ⟨t, ht, hshape, -⟩ := PthreadDllist.linkNode_shape h.1 data
  refine ⟨t, ht, hshape, ?_⟩
  rw [hshape.count, dllistAppend, ← h.2, h.1.count]
  simp

theorem represents_delete {s : PthreadDllist} {l : Dllist} {n : ℕ} (h : s.Represents l)
    (hn : n ∈ l.nodes) : ∃ t, s.unlinkNode n = some t ∧ t.Represents (dllistDelete l n) := by
  obtain ⟨t, ht, hshape, -⟩ := PthreadDllist.unlinkNode_shape h.1 hn
  refine ⟨t, ht, hshape, ?_⟩
  have hpos := List.length_pos_of_mem hn
  rw [hshape.count, dllistDelete, ← h.2, h.1.count, List.length_erase_of_mem hn]
  dsimp only
  omega

/-! ## What is held -/

/-- All that `freeBuf` and `freeCl` do. -/
def cleanUp (k : ℕ) : List ClStmt := .freeBuf k :: freeCl

/-- The custody of the resources of a thread with the buffer `buf` when of its clean-up
    `rest` is left to do. -/
def owed (buf : ℕ) (rest : List ClStmt) : ClRes → Custody
  | .fd => if .close ∈ rest then .held else .released
  | .entry => if .delete ∈ rest then .held else .released
  | .cl => if .freeCl ∈ rest then .held else .released
  | .buf k =>
    if k < buf then .released
    else if k = buf then if .freeBuf k ∈ rest then .held else .released
    else .unused

/-- The clean-up, statement by statement. -/
theorem cleanUp_cases {k : ℕ} {c : ClStmt} {rest : List ClStmt} (h : c :: rest <:+ cleanUp k) :
    c = .freeBuf k ∧ rest = freeCl ∨ c = .close ∧ rest = [.delete, .signal, .freeCl] ∨
      c = .delete ∧ rest = [.signal, .freeCl] ∨ c = .signal ∧ rest = [.freeCl] ∨
      c = .freeCl ∧ rest = [] := by
  simpa [cleanUp, freeCl, List.suffix_cons_iff] using h

theorem close_of_cancels {k : ℕ} {c : ClStmt} {rest : List ClStmt} (h : c :: rest <:+ cleanUp k)
    (hc : c.cancels) : c = .close := by
  rcases cleanUp_cases h with ⟨rfl, -⟩ | ⟨rfl, -⟩ | ⟨rfl, -⟩ | ⟨rfl, -⟩ | ⟨rfl, -⟩
  · cases hc
  · rfl
  all_goals cases hc

/-- A statement of the clean-up releases what it should. -/
theorem accounts_next {buf : ℕ} {c : ClStmt} {rest : List ClStmt} {m : List (Ledger.Move ClRes)}
    (hc : c :: rest <:+ cleanUp buf) (h : Accounts (owed buf (c :: rest)) m) :
    Accounts (owed buf rest) (m ++ c.gives) := by
  refine h.append fun r => ?_
  rcases cleanUp_cases hc with ⟨rfl, rfl⟩ | ⟨rfl, rfl⟩ | ⟨rfl, rfl⟩ | ⟨rfl, rfl⟩ | ⟨rfl, rfl⟩
  · cases r with
    | buf k =>
      rcases lt_trichotomy k buf with hk | rfl | hk
      · simp [owed, ClStmt.gives, hk, hk.ne']
      · simp [owed, ClStmt.gives, freeCl, Custody.taken, Custody.given]
      · simp [owed, ClStmt.gives, hk.ne, hk.ne', hk.not_gt]
    | _ => simp [owed, ClStmt.gives, freeCl]
  all_goals cases r <;> simp [owed, ClStmt.gives, Custody.taken, Custody.given]

/-- A new buffer instead of the old one. -/
theorem accounts_newBuf {buf : ℕ} {m : List (Ledger.Move ClRes)}
    (h : Accounts (owed buf (cleanUp buf)) m) :
    Accounts (owed (buf + 1) (cleanUp (buf + 1)))
      (m ++ [.gave (.buf buf), .took (.buf (buf + 1))]) := by
  refine h.append fun r => ?_
  cases r with
  | buf k =>
    rcases lt_trichotomy k buf with hk | rfl | hk
    · simp [owed, hk, hk.ne', show k < buf + 1 by omega, show buf + 1 ≠ k by omega]
    · simp [owed, cleanUp, Custody.taken, Custody.given]
    · by_cases hk' : k = buf + 1
      · subst hk'
        simp [owed, cleanUp, Custody.taken, Custody.given, show ¬ buf + 1 < buf by omega]
      · simp [owed, hk.ne, hk.ne', hk.not_gt, hk', Ne.symm hk', show ¬ k < buf + 1 by omega]
  | _ => simp [owed, cleanUp, freeCl]

namespace ClThread

/-- The thread `t` has still to do `rest` of its clean-up: its handlers are pushed, or it is
    sending with cancellation disabled, or it is at the clean-up. -/
inductive At (t : ClThread) : List ClStmt → Prop
  | guarded (htodo : t.todo = [.poll] ∨ t.todo = [.read])
      (hhand : t.handlers = [.freeBuf t.buf, .freeCl]) : t.At (cleanUp t.buf)
  | sending (htodo : t.todo = [.sendMail, .write] ∨ t.todo = [.write]) (hhand : t.handlers = [])
      (hen : t.enabled = false) : t.At (cleanUp t.buf)
  | leaving {rest : List ClStmt} (htodo : t.todo = rest ∨ t.todo = rest ++ [.exit])
      (hrest : rest <:+ cleanUp t.buf) (hhand : t.handlers = []) : t.At rest

/-- What the thread has not released yet it has still to release, and the rest it has released. -/
def Sound (t : ClThread) : Prop := ∃ rest, t.At rest ∧ Accounts (owed t.buf rest) t.moves

section
variable {t t' : ClThread} {io : ClIo} {c : ClStmt} {todo rest : List ClStmt}

theorem sound_start : start.Sound := by
  refine ⟨_, .guarded (Or.inl rfl) rfl, fun r => ?_⟩
  cases r with
  | buf k =>
    by_cases hk : k = 0
    · simp [start, owed, cleanUp, Custody.taken, Custody.given, hk]
    · simp [start, owed, Custody.taken, Custody.given, hk, Ne.symm hk]
  | _ => simp [start, owed, cleanUp, freeCl, Custody.taken, Custody.given]

/-- The statement a thread is at, by where it is. -/
theorem At.cases_head (h : t.At rest) (htodo : t.todo = c :: todo) :
    ((c = .poll ∨ c = .read) ∧ todo = []) ∧ t.handlers = [.freeBuf t.buf, .freeCl] ∧
      rest = cleanUp t.buf ∨
    (c = .sendMail ∧ todo = [.write] ∨ c = .write ∧ todo = []) ∧ t.handlers = [] ∧
      t.enabled = false ∧ rest = cleanUp t.buf ∨
    (c = .exit ∧ todo = []) ∧ t.handlers = [] ∧ rest = [] ∨
    ∃ rest', rest = c :: rest' ∧ rest <:+ cleanUp t.buf ∧ t.handlers = [] ∧
      (todo = rest' ∨ todo = rest' ++ [.exit]) := by
  cases h with
  | guarded ht hh =>
    refine Or.inl ⟨?_, hh, rfl⟩
    rcases ht with ht | ht <;> cases htodo.symm.trans ht <;> simp
  | sending ht hh he =>
    refine Or.inr (Or.inl ⟨?_, hh, he, rfl⟩)
    rcases ht with ht | ht <;> cases htodo.symm.trans ht <;> simp
  | leaving ht hr hh =>
    refine Or.inr (Or.inr ?_)
    cases rest with
    | nil =>
      rcases ht with ht | ht
      · cases htodo.symm.trans ht
      · cases htodo.symm.trans ht
        exact Or.inl ⟨⟨rfl, rfl⟩, hh, rfl⟩
    | cons c' rest =>
      rcases ht with ht | ht
      · cases htodo.symm.trans ht
        exact Or.inr ⟨_, rfl, hr, hh, Or.inl rfl⟩
      · cases htodo.symm.trans ht
        exact Or.inr ⟨_, rfl, hr, hh, Or.inr rfl⟩

/-- A thread that reads, or has nothing left to do but to exit, can exit. -/
theorem sound_exit (h : t.Sound) (htodo : t.todo = c :: todo)
    (hc : c = .poll ∨ c = .read ∨ c = .exit) : t.exit.Sound := by
  obtain ⟨rest, hat, hacc⟩ := h
  rcases hat.cases_head htodo with ⟨-, hh, rfl⟩ | ⟨hs, -⟩ | ⟨-, hh, rfl⟩ | ⟨rest', rfl, hr, -⟩
  · have hbody : t.exit.todo = cleanUp t.buf := by rw [exit, hh]; rfl
    exact ⟨_, .leaving (Or.inl hbody) List.suffix_rfl rfl, hacc⟩
  · rcases hs with ⟨rfl, -⟩ | ⟨rfl, -⟩ <;> simp at hc
  · have hbody : t.exit.todo = [] := by rw [exit, hh]; rfl
    exact ⟨[], .leaving (Or.inl hbody) List.nil_suffix rfl, hacc⟩
  · rcases cleanUp_cases hr with ⟨rfl, -⟩ | ⟨rfl, -⟩ | ⟨rfl, -⟩ | ⟨rfl, -⟩ | ⟨rfl, -⟩ <;> simp at hc

theorem next_of_run {k : ℕ} (hr : c :: rest <:+ cleanUp k) (hrun : t.run io c = some t') :
    t' = t.next c := by
  rcases cleanUp_cases hr with ⟨rfl, -⟩ | ⟨rfl, -⟩ | ⟨rfl, -⟩ | ⟨rfl, -⟩ | ⟨rfl, -⟩
  all_goals
    simp only [run] at hrun
    split at hrun
    · exact (Option.some.inj hrun).symm
    · cases hrun

/-- A thread at its clean-up goes on with it. -/
theorem sound_next (hr : c :: rest <:+ cleanUp t.buf) (hh : t.handlers = [])
    (htodo : t.todo = c :: todo) (hto : todo = rest ∨ todo = rest ++ [.exit])
    (hacc : Accounts (owed t.buf (c :: rest)) t.moves) : (t.next c).Sound := by
  have htail : (t.next c).todo = todo := by rw [next, htodo]; rfl
  exact ⟨rest, .leaving (htail ▸ hto) ((List.suffix_cons c rest).trans hr) hh, accounts_next hr hacc⟩

theorem sound_pending (h : t.Sound) : Sound { t with pending := true } := by
  obtain ⟨rest, hat, hacc⟩ := h
  cases hat with
  | guarded ht hh => exact ⟨_, .guarded ht hh, hacc⟩
  | sending ht hh he => exact ⟨_, .sending ht hh he, hacc⟩
  | leaving ht hr hh => exact ⟨_, .leaving ht hr hh, hacc⟩

/-- A thread with everything, at the top of its loop. -/
theorem sound_loop (st : ReadBuf) (hh : t.handlers = [])
    (hacc : Accounts (owed t.buf (cleanUp t.buf)) t.moves) : (t.loop st).Sound := by
  refine ⟨_, .guarded (Or.inl rfl) ?_, hacc⟩
  rw [loop, push, hh]

theorem sound_byHand (hh : t.handlers = []) (hacc : Accounts (owed t.buf (cleanUp t.buf)) t.moves) :
    t.byHand.Sound :=
  ⟨_, .leaving (Or.inr rfl) List.suffix_rfl hh, hacc⟩

/-- **A statement keeps what is still to be released in the hands of the thread.** -/
theorem sound_run (h : t.Sound) (htodo : t.todo = c :: todo) (hrun : t.run io c = some t') :
    t'.Sound := by
  obtain ⟨rest, hat, hacc⟩ := h
  rcases hat.cases_head htodo with ⟨⟨rfl | rfl, -⟩, hh, rfl⟩ | ⟨⟨rfl, rfl⟩ | ⟨rfl, -⟩, hh, he, rfl⟩ |
    ⟨⟨rfl, -⟩, hh, rfl⟩ | ⟨rest', rfl, hr, hh, hto⟩
  · -- `poll`
    have hpop : t.pop.handlers = [] := by rw [pop, hh]; rfl
    cases io with
    | timeout | error =>
      obtain rfl := Option.some.inj hrun
      exact sound_exit ⟨_, hat, hacc⟩ htodo (by simp)
    | ready pollin =>
      obtain rfl := Option.some.inj hrun
      cases pollin with
      | false => exact sound_byHand hpop hacc
      | true =>
        refine ⟨_, .guarded (Or.inr rfl) ?_, hacc⟩
        change t.pop.push.handlers = _
        rw [push, hpop]
        rfl
    | _ => cases hrun
  · -- `read`
    have hpop : t.pop.handlers = [] := by rw [pop, hh]; rfl
    cases io with
    | readEnd =>
      obtain rfl := Option.some.inj hrun
      exact sound_exit ⟨_, hat, hacc⟩ htodo (by simp)
    | bytes bs =>
      simp only [run] at hrun
      split at hrun
      · split at hrun
        · obtain rfl := Option.some.inj hrun
          split
          · exact ⟨_, .sending (Or.inl rfl) hpop rfl, accounts_newBuf hacc⟩
          · exact ⟨_, .sending (Or.inl rfl) hpop rfl, hacc⟩
        · obtain rfl := Option.some.inj hrun
          split
          · exact sound_loop _ hpop (accounts_newBuf hacc)
          · exact sound_loop _ hpop hacc
      · cases hrun
    | _ => cases hrun
  · -- `sendMail`
    simp only [run] at hrun
    split at hrun
    · obtain rfl := Option.some.inj hrun
      have hnext : (t.next .sendMail).todo = [.write] := by rw [next, htodo]; rfl
      have hmoves : (t.next .sendMail).moves = t.moves := List.append_nil _
      exact ⟨_, .sending (Or.inr hnext) hh he, hmoves ▸ hacc⟩
    · cases hrun
  · -- `write`
    cases io with
    | written ok =>
      cases ok with
      | true =>
        obtain rfl := Option.some.inj hrun
        exact sound_loop _ hh (accounts_newBuf hacc)
      | false =>
        obtain rfl := Option.some.inj hrun
        exact sound_byHand hh hacc
    | _ => cases hrun
  · -- `pthread_exit`
    obtain rfl := Option.some.inj hrun
    exact sound_exit ⟨_, hat, hacc⟩ htodo (by simp)
  · -- the clean-up
    rw [next_of_run hr hrun]
    exact sound_next hr hh htodo hto hacc

/-! ## Threads that have ended -/

/-- Each of its resources has been released, once. -/
def Released (m : List (Ledger.Move ClRes)) : Prop :=
  m.count (.gave .fd) = 1 ∧ m.count (.gave .entry) = 1 ∧ m.count (.gave .cl) = 1 ∧
    ∀ k, m.count (.took (.buf k)) ≤ 1 ∧ m.count (.gave (.buf k)) = m.count (.took (.buf k))

/-- **A thread that has ended has released what it had, once.** -/
theorem released_of_sound (h : t.Sound) (htodo : t.todo = []) : Released t.moves := by
  obtain ⟨rest, hat, hacc⟩ := h
  have hrest : rest = [] := by
    cases hat with
    | guarded ht | sending ht => simp [htodo] at ht
    | leaving ht =>
      rcases ht with ht | ht
      · exact ht.symm.trans htodo
      · simp [htodo] at ht
  subst hrest
  refine ⟨(hacc .fd).2, (hacc .entry).2, (hacc .cl).2, fun k => ?_⟩
  obtain ⟨htook, hgave⟩ := hacc (.buf k)
  rw [htook, hgave]
  rcases lt_trichotomy k t.buf with hk | rfl | hk
  · simp [owed, hk, Custody.taken, Custody.given]
  · simp [owed, Custody.taken, Custody.given]
  · simp [owed, hk.ne', hk.not_gt, Custody.taken, Custody.given]

/-- A thread whose entry is there has not ended. -/
theorem todo_of_held (h : t.Sound) (hm : .gave .entry ∉ t.moves) : t.todo ≠ [] := by
  intro htodo
  have hone := (released_of_sound h htodo).2.1
  rw [List.count_eq_zero.2 hm] at hone
  cases hone

/-- The entry is there until it is deleted. -/
theorem held_of_delete (h : t.Sound) (htodo : t.todo = .delete :: todo) :
    .gave .entry ∉ t.moves := by
  obtain ⟨rest, hat, hacc⟩ := h
  rcases hat.cases_head htodo with ⟨hc, -⟩ | ⟨hc, -⟩ | ⟨hc, -⟩ | ⟨rest', rfl, -⟩
  · simp at hc
  · simp at hc
  · simp at hc
  · have hzero := (hacc .entry).2
    rw [owed, if_pos List.mem_cons_self] at hzero
    exact List.count_eq_zero.1 hzero

theorem gave_of_run (hrun : t.run io c = some t') :
    .gave .entry ∈ t'.moves ↔ .gave .entry ∈ t.moves ∨ c = .delete := by
  cases c with
  | poll =>
    cases io with
    | timeout | error =>
      obtain rfl := Option.some.inj hrun
      simp [exit]
    | ready pollin =>
      obtain rfl := Option.some.inj hrun
      cases pollin <;> simp [pop, push, byHand]
    | _ => cases hrun
  | read =>
    cases io with
    | readEnd =>
      obtain rfl := Option.some.inj hrun
      simp [exit]
    | bytes bs =>
      simp only [run] at hrun
      split at hrun
      · split at hrun
        · obtain rfl := Option.some.inj hrun
          split <;> simp [pop, newBuf]
        · obtain rfl := Option.some.inj hrun
          split <;> simp [pop, newBuf, loop, push]
      · cases hrun
    | _ => cases hrun
  | write =>
    cases io with
    | written ok =>
      cases ok <;> obtain rfl := Option.some.inj hrun
      · simp [byHand]
      · simp [newBuf, loop, push]
    | _ => cases hrun
  | exit =>
    obtain rfl := Option.some.inj hrun
    simp [exit]
  | _ =>
    simp only [run] at hrun
    split at hrun
    · obtain rfl := Option.some.inj hrun
      simp [next, ClStmt.gives]
    · cases hrun

/-- A thread that has still to signal is at its clean-up, and does so. -/
theorem signal_of_run (h : t.Sound) (htodo : t.todo = c :: todo) (hrun : t.run io c = some t')
    (hs : .signal ∈ t.todo ∨ c = .delete) : c = .signal ∨ .signal ∈ t'.todo := by
  obtain ⟨rest, hat, -⟩ := h
  rw [htodo] at hs
  rcases hat.cases_head htodo with ⟨⟨rfl | rfl, rfl⟩, -⟩ | ⟨⟨rfl, rfl⟩ | ⟨rfl, rfl⟩, -⟩ |
    ⟨⟨rfl, rfl⟩, -⟩ | ⟨rest', rfl, hr, -, hto⟩
  iterate 5 simp at hs
  · have htail : t'.todo = todo := by rw [next_of_run hr hrun, next, htodo]; rfl
    rw [htail]
    rcases hs with hs | rfl
    · exact (List.mem_cons.1 hs).imp_left Eq.symm
    · refine Or.inr ?_
      have hrest : rest' = [.signal, .freeCl] := by
        simpa [cleanUp, freeCl, List.suffix_cons_iff] using hr
      rcases hto with rfl | rfl <;> simp [hrest]

end

end ClThread

/-! ## The threads and the list -/

namespace Clients

/-- A cancellation acts in the `close` of a clean-up. -/
def Torn (s : Clients) (a : ClientsAct) : Prop :=
  ∃ i t, a = .cancelled i ∧ s.threads[i]? = some t ∧ t.todo.head? = some .close

structure Inv (s : Clients) : Prop where
  sound : ∀ t ∈ s.threads, t.Sound
  entry : ∀ i, i ∈ s.list.nodes ↔ ∃ t, s.threads[i]? = some t ∧ .gave .entry ∉ t.moves
  nodup : s.list.nodes.Nodup
  count : s.list.count = s.list.nodes.length
  heard : s.abort = .wait → 0 < s.list.count ∨ ∃ t ∈ s.threads, .signal ∈ t.todo

/-- What has ended has released everything, once; the entries are those of threads that
    have not ended, and `abortClients` waits for one of these. -/
def Clean (s : Clients) : Prop :=
  (∀ t ∈ s.threads, t.todo = [] → ClThread.Released t.moves) ∧
    (∀ i ∈ s.list.nodes, ∃ t, s.threads[i]? = some t ∧ t.todo ≠ []) ∧
    (0 < s.list.count ∨ s.abort = .wait → ∃ t ∈ s.threads, t.todo ≠ [])

section
variable {s s' : Clients} {a : ClientsAct} {i : ℕ} {t t' : ClThread}

theorem clean_of_inv (hI : s.Inv) : s.Clean := by
  have hentry : ∀ i ∈ s.list.nodes, ∃ t, s.threads[i]? = some t ∧ t.todo ≠ [] := by
    intro i hi
    obtain ⟨t, ht, hm⟩ := (hI.entry i).1 hi
    exact ⟨t, ht, ClThread.todo_of_held (hI.sound t (List.mem_of_getElem? ht)) hm⟩
  refine ⟨fun t ht => ClThread.released_of_sound (hI.sound t ht), hentry, fun h => ?_⟩
  have hheld : 0 < s.list.count ∨ ∃ t ∈ s.threads, .signal ∈ t.todo :=
    h.elim Or.inl hI.heard
  rcases hheld with hcount | ⟨t, ht, hs⟩
  · rw [hI.count, Int.natCast_pos, List.length_pos_iff_exists_mem] at hcount
    obtain ⟨i, hi⟩ := hcount
    obtain ⟨t, ht, hne⟩ := hentry i hi
    exact ⟨t, List.mem_of_getElem? ht, hne⟩
  · exact ⟨t, ht, List.ne_nil_of_mem hs⟩

/-- A thread changes, and its entry with it. -/
theorem inv_set {l : Dllist} {pc : AbortClientsPc} (hI : s.Inv) (hi : s.threads[i]? = some t)
    (ht' : t'.Sound) (hothers : ∀ j, j ≠ i → (j ∈ l.nodes ↔ j ∈ s.list.nodes))
    (hself : i ∈ l.nodes ↔ .gave .entry ∉ t'.moves) (hnd : l.nodes.Nodup)
    (hcount : l.count = l.nodes.length)
    (hheard : pc = .wait → 0 < l.count ∨ ∃ u ∈ s.threads.set i t', .signal ∈ u.todo) :
    Inv ⟨s.threads.set i t', l, pc⟩ where
  sound u hu := by
    rcases List.mem_or_eq_of_mem_set hu with hu | rfl
    · exact hI.sound u hu
    · exact ht'
  entry j := by
    have hlt : i < s.threads.length := (List.getElem?_eq_some_iff.1 hi).1
    rw [List.getElem?_set]
    by_cases hji : j = i
    · subst hji
      simp [hlt, hself]
    · rw [if_neg (Ne.symm hji)]
      exact (hothers j hji).trans (hI.entry j)
  nodup := hnd
  count := hcount
  heard := hheard

/-- Who has still to signal does so, or signals now. -/
theorem heard_set (hi : s.threads[i]? = some t) (hs : .signal ∈ t.todo → .signal ∈ t'.todo)
    (h : 0 < s.list.count ∨ ∃ u ∈ s.threads, .signal ∈ u.todo) :
    0 < s.list.count ∨ ∃ u ∈ s.threads.set i t', .signal ∈ u.todo := by
  refine h.imp_right ?_
  rintro ⟨u, hu, husig⟩
  obtain ⟨j, hj⟩ := List.mem_iff_getElem?.1 hu
  have hlt : i < s.threads.length := (List.getElem?_eq_some_iff.1 hi).1
  by_cases hji : j = i
  · subst hji
    obtain rfl := Option.some.inj (hi.symm.trans hj)
    exact ⟨t', List.mem_of_getElem? (i := j) (by simp [hlt]), hs husig⟩
  · have hu' : (s.threads.set i t')[j]? = some u := by
      rw [List.getElem?_set, if_neg (Ne.symm hji), hj]
    exact ⟨u, List.mem_of_getElem? hu', husig⟩

theorem lt_of_entry (hI : s.Inv) (hi : i ∈ s.list.nodes) : i < s.threads.length := by
  obtain ⟨t, ht, -⟩ := (hI.entry i).1 hi
  exact (List.getElem?_eq_some_iff.1 ht).1

theorem inv_accept (hI : s.Inv) :
    Inv { s with
      threads := s.threads ++ [.start]
      list := dllistAppend s.list s.threads.length } where
  sound t ht := by
    rcases List.mem_append.1 ht with ht | ht
    · exact hI.sound t ht
    · rw [List.mem_singleton.1 ht]
      exact ClThread.sound_start
  entry j := by
    rcases lt_trichotomy j s.threads.length with hj | rfl | hj
    · have hne : j ≠ s.threads.length := hj.ne
      rw [List.getElem?_append_left hj, ← hI.entry j]
      simp [dllistAppend, hne]
    · simp [dllistAppend, ClThread.start]
    · have hno : j ∉ s.list.nodes := fun hmem => absurd (lt_of_entry hI hmem) hj.not_gt
      have hout : (s.threads ++ [ClThread.start])[j]? = none := by
        rw [List.getElem?_eq_none_iff, List.length_append, List.length_singleton]
        exact hj
      rw [hout]
      simp [dllistAppend, hno, hj.ne']
  nodup := by
    refine List.nodup_append.2 ⟨hI.nodup, List.pairwise_singleton _ _, fun j hj k hk => ?_⟩
    rw [List.mem_singleton.1 hk]
    exact (lt_of_entry hI hj).ne
  count := by
    have hcount := hI.count
    simp [dllistAppend, hcount]
  heard hw := by
    refine (hI.heard hw).imp (fun h => ?_) fun ⟨t, ht, hs⟩ => ⟨t, List.mem_append_left _ ht, hs⟩
    simp only [dllistAppend]
    omega

theorem inv_abortCl (hI : s.Inv) (rest : List ℕ) :
    Inv { s.abortCl i with abort := .visit rest } where
  sound t ht := by
    obtain ⟨j, hj⟩ := List.mem_iff_getElem?.1 ht
    rw [abortCl, List.getElem?_modify] at hj
    obtain ⟨u, hu, rfl⟩ := Option.map_eq_some_iff.1 hj
    have hS := hI.sound u (List.mem_of_getElem? hu)
    split
    · exact ClThread.sound_pending hS
    · exact hS
  entry j := by
    rw [abortCl, List.getElem?_modify]
    refine (hI.entry j).trans ?_
    cases s.threads[j]? with
    | none => simp
    | some u => by_cases hij : i = j <;> simp [hij]
  nodup := hI.nodup
  count := hI.count
  heard hw := by cases hw

theorem inv_abort (hI : s.Inv) (h : s.abortStep = some s') : s'.Inv := by
  have hpc : ∀ pc, (pc = .wait → 0 < s.list.count) → Inv { s with abort := pc } := fun pc hw =>
    ⟨hI.sound, hI.entry, hI.nodup, hI.count, fun he => Or.inl (hw he)⟩
  unfold abortStep at h
  split at h
  · obtain rfl := Option.some.inj h
    exact hpc _ (by simp)
  · obtain rfl := Option.some.inj h
    exact hpc _ (by simp)
  · obtain rfl := Option.some.inj h
    exact inv_abortCl hI _
  · obtain rfl := Option.some.inj h
    refine hpc _ fun he => ?_
    split at he
    · assumption
    · cases he
  · obtain rfl := Option.some.inj h
    refine hpc _ fun he => ?_
    split at he
    · assumption
    · cases he
  · cases h
  · cases h

theorem inv_go {io : ClIo} (hI : s.Inv) (h : step s (.go i io) = some s') : s'.Inv := by
  obtain ⟨t, hi, h⟩ := Option.bind_eq_some_iff.1 h
  obtain ⟨c, hc, h⟩ := Option.bind_eq_some_iff.1 h
  obtain ⟨t', hrun, h⟩ := Option.bind_eq_some_iff.1 h
  obtain ⟨u, hu, rfl⟩ := Option.map_eq_some_iff.1 h
  obtain ⟨todo, htodo⟩ := List.head?_eq_some_iff.1 hc
  have hS : t.Sound := hI.sound t (List.mem_of_getElem? hi)
  have hgave := ClThread.gave_of_run hrun
  have hsig := ClThread.signal_of_run hS htodo hrun
  have hself : i ∈ s.list.nodes ↔ .gave .entry ∉ t.moves := by
    rw [hI.entry i, hi]
    simp
  have hS' : t'.Sound := ClThread.sound_run hS htodo hrun
  by_cases hdel : c = .delete
  · subst hdel
    have hheld := ClThread.held_of_delete hS htodo
    have hmem : i ∈ s.list.nodes := hself.2 hheld
    have hlen := List.length_erase_of_mem hmem
    have hpos := List.length_pos_of_mem hmem
    have hcount := hI.count
    have hlt : i < s.threads.length := lt_of_entry hI hmem
    simp only [shared] at hu
    split at hu
    · cases hu
    · obtain rfl := Option.some.inj hu
      change Inv ⟨s.threads.set i t', dllistDelete s.list i, s.abort⟩
      refine inv_set hI hi hS' (fun j hj => List.mem_erase_of_ne hj) ?_ (hI.nodup.erase i) ?_ ?_
      · simp [dllistDelete, hI.nodup.mem_erase_iff, hgave]
      · simp only [dllistDelete]
        omega
      · have hsig' : .signal ∈ t'.todo := (hsig (Or.inr rfl)).resolve_left (by simp)
        exact fun _ => Or.inr ⟨t', List.mem_of_getElem? (i := i) (by simp [hlt]), hsig'⟩
  · have hgave' : .gave .entry ∈ t'.moves ↔ .gave .entry ∈ t.moves := by simp [hgave, hdel]
    have hset : ∀ pc, (pc = .wait → s.abort = .wait ∧ c ≠ .signal) →
        Inv ⟨s.threads.set i t', s.list, pc⟩ := fun pc hpc =>
      inv_set hI hi hS' (fun _ _ => Iff.rfl) (hself.trans (not_congr hgave').symm) hI.nodup hI.count
        fun hw => heard_set hi (fun hs => (hsig (Or.inl hs)).resolve_left (hpc hw).2)
          (hI.heard (hpc hw).1)
    by_cases hc : c = .signal
    · subst hc
      obtain rfl := Option.some.inj hu
      refine hset _ fun hw => ?_
      split at hw
      · cases hw
      · exact absurd hw ‹_›
    · have hsame : u = s := by
        cases c with
        | delete => exact absurd rfl hdel
        | signal => exact absurd rfl hc
        | _ => exact (Option.some.inj hu).symm
      subst hsame
      exact hset _ fun hw => ⟨hw, hc⟩

theorem cancelled_eq (h : step s (.cancelled i) = some s') : ∃ t c todo, s.threads[i]? = some t ∧
    t.todo = c :: todo ∧ c.cancels ∧ t.enabled ∧ s' = s.setThread i t.exit := by
  obtain ⟨t, hi, h⟩ := Option.bind_eq_some_iff.1 h
  obtain ⟨c, hc, h⟩ := Option.bind_eq_some_iff.1 h
  obtain ⟨todo, htodo⟩ := List.head?_eq_some_iff.1 hc
  split at h
  · rename_i hcan
    exact ⟨t, c, todo, hi, htodo, hcan.1, hcan.2.1, (Option.some.inj h).symm⟩
  · cases h

/-- **A cancellation that is not torn** acts where the handlers are pushed. -/
theorem inv_cancelled (hI : s.Inv) (hC : ¬ s.Torn (.cancelled i))
    (h : step s (.cancelled i) = some s') : s'.Inv := by
  obtain ⟨t, c, todo, hi, htodo, hcan, hen, rfl⟩ := cancelled_eq h
  have hS : t.Sound := hI.sound t (List.mem_of_getElem? hi)
  have hclose : c ≠ .close := by
    rintro rfl
    exact hC ⟨i, t, rfl, hi, by rw [htodo]; rfl⟩
  obtain ⟨rest, hat, -⟩ := hS
  have hread : (c = .poll ∨ c = .read) ∧ todo = [] := by
    rcases hat.cases_head htodo with ⟨hc, -⟩ | ⟨-, -, he, -⟩ | ⟨⟨rfl, -⟩, -⟩ | ⟨rest', rfl, hr, -⟩
    · exact hc
    · rw [he] at hen
      cases hen
    · cases hcan
    · exact absurd (close_of_cancels hr hcan) hclose
  have hsig : .signal ∉ t.todo := by
    rw [htodo, hread.2]
    rcases hread.1 with rfl | rfl <;> simp
  have hself : i ∈ s.list.nodes ↔ .gave .entry ∉ t.exit.moves := by
    rw [hI.entry i, hi]
    simp [ClThread.exit]
  have hexit : t.exit.Sound :=
    ClThread.sound_exit (hI.sound t (List.mem_of_getElem? hi)) htodo (by tauto)
  exact inv_set hI hi hexit (fun _ _ => Iff.rfl) hself hI.nodup hI.count fun hw =>
    heard_set hi (fun hs => absurd hs hsig) (hI.heard hw)

theorem inv_step (hI : s.Inv) (hC : ¬ s.Torn a) (h : step s a = some s') : s'.Inv := by
  cases a with
  | accept =>
    simp only [step] at h
    split at h
    · obtain rfl := Option.some.inj h
      exact inv_accept hI
    · cases h
  | abort => exact inv_abort hI h
  | spurious =>
    simp only [step] at h
    split at h
    · obtain rfl := Option.some.inj h
      exact ⟨hI.sound, hI.entry, hI.nodup, hI.count, fun hw => by cases hw⟩
    · cases h
  | go i io => exact inv_go hI h
  | cancelled i => exact inv_cancelled hI hC h

/-- A torn thread is gone, and has not deleted its entry. -/
theorem not_clean_of_torn (hI : s.Inv) (hC : s.Torn a) (h : step s a = some s') : ¬ s'.Clean := by
  obtain ⟨i, t, rfl, hi, hclose⟩ := hC
  obtain ⟨u, c, todo, hu, htodo, -, -, rfl⟩ := cancelled_eq h
  obtain rfl : t = u := Option.some.inj (hi.symm.trans hu)
  obtain rfl : c = .close := by
    rw [htodo] at hclose
    exact Option.some.inj hclose
  obtain ⟨rest, hat, hacc⟩ := hI.sound t (List.mem_of_getElem? hi)
  rcases hat.cases_head htodo with ⟨⟨hc, -⟩, -⟩ | ⟨hc, -⟩ | ⟨⟨hc, -⟩, -⟩ | ⟨rest', rfl, hr, hh, -⟩
  · simp at hc
  · simp at hc
  · cases hc
  · have hrest : rest' = [.delete, .signal, .freeCl] := by
      simpa [cleanUp, freeCl, List.suffix_cons_iff] using hr
    have hgone : t.exit.todo = [] := by rw [ClThread.exit, hh]; rfl
    have hzero : t.exit.moves.count (.gave .entry) = 0 := by
      have hentry := (hacc .entry).2
      rw [owed, if_pos (by simp [hrest])] at hentry
      exact hentry
    have hlt : i < s.threads.length := (List.getElem?_eq_some_iff.1 hi).1
    intro hclean
    have hmem : t.exit ∈ (s.setThread i t.exit).threads :=
      List.mem_of_getElem? (i := i) (by simp [setThread, hlt])
    have hone := (hclean.1 t.exit hmem hgone).2.1
    rw [hzero] at hone
    cases hone

/-- **Clean-up under cancellation.**  In all states of a run every thread that has ended has
    closed its descriptor, deleted its entry, freed its `cl_t` and each of its buffers
    exactly once, the entries are those of threads that have not ended, and `abortClients`
    waits for one of these, iff no cancellation has acted in the `close` of a clean-up by
    hand. -/
theorem clean_iff {p : List (Clients × ClientsAct)} (h : Runs.Path step init p s) :
    (∀ t ∈ Runs.visited p s, t.Clean) ↔ ∀ x ∈ p, ¬ x.1.Torn x.2 := by
  refine h.visited_iff (J := Inv) (G := Clean) (C := fun s a => ¬ s.Torn a) ?_
    (fun _ _ hI => clean_of_inv hI) (fun _ _ _ _ hI hC ha => inv_step hI hC ha)
    fun _ _ _ _ hI hC ha => not_clean_of_torn hI (not_not.1 hC) ha
  exact ⟨by simp [init], by simp [init], List.nodup_nil, rfl, fun hw => by cases hw⟩

end

/-- A client is cancelled in its `poll`, and `abortClients` waits for its clean-up. -/
def abortRun : List ClientsAct :=
  [.accept, .abort, .abort, .abort, .cancelled 0, .abort, .go 0 .done, .go 0 .done, .go 0 .done,
    .go 0 .done, .abort, .go 0 .done]

/-- A client is polled without POLLIN and cleans up by hand; before it comes to its `close`,
    `abortClients` cancels it. -/
def tornRun : List ClientsAct :=
  [.accept, .go 0 (.ready false), .go 0 .done, .abort, .abort, .abort, .cancelled 0, .abort]

theorem clean_iff_abort : ∃ s, Runs.Reach step init s ∧ s.abort = .done ∧
    (∀ t ∈ s.threads, t.todo = []) ∧ s.list.nodes = [] ∧ s.Clean := by
  obtain ⟨s, hs⟩ : ∃ s, Runs.exec step init abortRun = some s := ⟨_, rfl⟩
  have hclose : ∀ x ∈ Runs.trace step init abortRun, ∀ t ∈ x.1.threads,
      t.todo.head? = some .close → x.2 = .go 0 .done := by decide
  have hclean := (clean_iff (Runs.Path.trace hs)).2 (fun x hx ⟨i, t, ha, hi, hhead⟩ => by
    have hgo := hclose x hx t (List.mem_of_getElem? hi) hhead
    rw [ha] at hgo
    cases hgo) s (Runs.mem_visited_self _ s)
  refine ⟨s, (Runs.Path.trace hs).reach, ?_, ?_, ?_, hclean⟩
  all_goals
    obtain rfl := (Option.some.inj hs).symm
    decide

/-- **A client thread is gone, its entry is in the list, and `abortClients` waits.** -/
theorem abort_waits_forever : ∃ s, Runs.Reach step init s ∧ s.abort = .wait ∧
    (∀ t ∈ s.threads, t.todo = []) ∧ s.list.nodes = [0] ∧ ¬ s.Clean := by
  obtain ⟨s, hs⟩ : ∃ s, Runs.exec step init tornRun = some s := ⟨_, rfl⟩
  have hstate : s.abort = .wait ∧ (∀ t ∈ s.threads, t.todo = []) ∧ s.list.nodes = [0] := by
    obtain rfl := (Option.some.inj hs).symm
    decide
  obtain ⟨hwait, hgone, hentry⟩ := hstate
  refine ⟨s, (Runs.Path.trace hs).reach, hwait, hgone, hentry, fun hclean => ?_⟩
  obtain ⟨t, ht, hne⟩ := hclean.2.2 (Or.inr hwait)
  exact hne (hgone t ht)

end Clients

end SmtpProxy
