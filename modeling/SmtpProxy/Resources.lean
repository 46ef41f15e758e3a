/-
  What a connection takes and gives back: its `tpConn_t`, its sockets and its
  TLS objects, over its whole life.

  * `tcpConnect`: the sockets of `tcpConnect`;
  * `Stock.step`: a step of the threads (`Wire.step`), with what `newConn`,
    `smtpSSLConnect` and `endConn` take and release in it;
  * `custody`: what a connection holds when its thread is at some place;
  * `balance_iff`: all that is taken is released, once, iff no `newConn` fails
    after it has called `smtpSSLConnect`.
-/
import SmtpProxy.Lib.Ledger
import SmtpProxy.Secrecy

namespace SmtpProxy

open CString
open Ledger (Custody Accounts Balanced)

/-- The resources of a connection. -/
inductive Res where
  | conn  -- the `tpConn_t`
  | socket (k : ℕ)  -- the descriptors, in the order of the calls of `socket`
  | ctx  -- `conn->ctx`
  | ssl  -- `conn->ssl`
  deriving DecidableEq

/-- What `socket` and `connect` do for an address. -/
inductive Addr where
  | noSocket
  | refused
  | connected
  deriving DecidableEq

/-- `tcpConnect` for the addresses that `getaddrinfo` gives, with its moves; `k`
    sockets have been there before. -/
def tcpConnect (k : ℕ) : List Addr → Option ℕ × List (Ledger.Move Res)
  | [] => (none, [])
  | .noSocket :: rp => tcpConnect k rp
  | .refused :: rp =>
    let (sockfd, moves) := tcpConnect (k + 1) rp
    (sockfd, .took (.socket k) :: .gave (.socket k) :: moves)
  | .connected :: _ => (some k, [.took (.socket k)])

/-- A connection's moves so far, and its `sockfd`. -/
structure Account where
  sockfd : ℕ
  moves : List (Ledger.Move Res)
  deriving DecidableEq

def Account.note (a : Account) (m : List (Ledger.Move Res)) : Account := { a with moves := a.moves ++ m }

/-- `smtpSSLConnect` creates the TLS objects. -/
def callMoves (l : Line) : List (Ledger.Move Res) :=
  match l.todo with
  | .hand :: _ => [.took .ctx, .took .ssl]
  | _ => []

/-- `endConn`, before it takes `conn` out of its list. -/
def closeMoves (ssl : Bool) (sockfd : ℕ) : List (Ledger.Move Res) :=
  (if ssl then [.gave .ssl, .gave .ctx] else []) ++ [.gave (.socket sockfd)]

/-- The threads, and the accounts of the connections: of the one that `newConn`
    sets up, of those of the pool, and of those that `newConn` has given up. -/
structure Stock where
  wire : Wire
  fresh : Account
  lines : List Account
  lost : List (List (Ledger.Move Res))
  deriving DecidableEq

namespace Stock

/-- What is scheduled, and what `tcpConnect` meets. -/
structure Act where
  wire : Wire.Act
  addrs : List Addr

def init (n : ℕ) : Stock := ⟨.init n, ⟨0, []⟩, [], []⟩

section
variable (s : Stock) (w : Wire)

/-- A step of a client, that leads to `w`. -/
def clientStep (x : Act) (ok : Bool) : ClientPc → Option Stock
  | .connect =>
    let (sockfd, moves) := tcpConnect 0 x.addrs
    match sockfd, ok with
    | some sockfd, true => some { s with wire := w, fresh := ⟨sockfd, .took .conn :: moves⟩ }
    | none, false => some { s with wire := w, lost := s.lost ++ [.took .conn :: moves ++ [.gave .conn]] }
    | _, _ => none
  | .setup =>
    let a := s.fresh.note (callMoves s.wire.fresh)
    match s.wire.fresh.call x.wire.io with
    | (true, l) =>
      if l.todo = [] then some { s with wire := w, lines := s.lines ++ [a] }
      else some { s with wire := w, fresh := a }
    | (false, _) =>
      some { s with wire := w, lost := s.lost ++ [a.moves ++ [.gave .conn, .gave (.socket a.sockfd)]] }
  | _ => some { s with wire := w }

/-- A step of the thread of the connection `c`, that leads to `w`. -/
def noopStep (c : ℕ) : NoopPc → Option Stock
  | .closeHeld | .close => s.wire.lines[c]?.map fun l =>
    { s with wire := w, lines := s.lines.modify c fun a => a.note (closeMoves l.ssl a.sockfd) }
  | .destroy => some { s with wire := w, lines := s.lines.modify c fun a => a.note [.gave .conn] }
  | _ => some { s with wire := w }

end

def step (tp : Tp) (s : Stock) (x : Act) : Option Stock :=
  (s.wire.step tp x.wire).bind fun w =>
    match x.wire.act with
    | .client i ok => s.wire.pool.clients[i]?.bind (s.clientStep w x ok)
    | .noop c _ => s.wire.pool.conns[c]?.bind fun k => s.noopStep w c k.pc
    | _ => some { s with wire := w }

end Stock

/-- `endConn` has freed the connection. -/
def NoopPc.freed : NoopPc → Bool
  | .endSignal | .endBcast | .exited => true
  | _ => false

/-- Everywhere else the thread goes on with what it has. -/
theorem NoopPc.next_same {pc pc' : NoopPc} (h : pc' ∈ pc.next)
    (hpc : pc ∉ [NoopPc.closeHeld, .close, .destroy]) : pc'.hasSock = pc.hasSock ∧ pc'.freed = pc.freed := by
  cases pc <;> simp only [next, List.mem_cons, List.not_mem_nil, or_false] at h
  case top | woken => rcases h with rfl | rfl | rfl <;> exact ⟨rfl, rfl⟩
  case noop | relock => rcases h with rfl | rfl <;> exact ⟨rfl, rfl⟩
  case closeHeld | close | destroy => simp at hpc
  all_goals
    subst h
    exact ⟨rfl, rfl⟩

/-! ## What is held -/

/-- The custody of the resources of a connection with this `sockfd`: with TLS
    objects, its socket open, its `tpConn_t` allocated. -/
def custody (sockfd : ℕ) (ssl sock conn : Bool) : Res → Custody
  | .conn => if conn then .held else .released
  | .socket k =>
    if k < sockfd then .released
    else if k = sockfd then if sock then .held else .released
    else .unused
  | .ctx | .ssl => if ssl then if sock then .held else .released else .unused

/-- `endConn` closes what is open. -/
theorem custody_close {sockfd : ℕ} {ssl : Bool} (r : Res) :
    (custody sockfd ssl false true r).taken =
      (custody sockfd ssl true true r).taken + (closeMoves ssl sockfd).count (.took r) ∧
    (custody sockfd ssl false true r).given =
      (custody sockfd ssl true true r).given + (closeMoves ssl sockfd).count (.gave r) := by
  cases r with
  | socket j =>
    rcases lt_trichotomy j sockfd with hj | rfl | hj
    · cases ssl <;> simp [custody, closeMoves, hj, hj.ne']
    · cases ssl <;> simp [custody, closeMoves, Custody.taken, Custody.given]
    · cases ssl <;> simp [custody, closeMoves, hj.ne, hj.ne', hj.not_gt]
  | conn => cases ssl <;> simp [custody, closeMoves]
  | ctx | ssl => cases ssl <;> simp [custody, closeMoves, Custody.taken, Custody.given]

/-- The sockets from `k` to `n` are closed, and `n` is open if it is `got`. -/
def sockets (k n : ℕ) (got : Bool) : Res → Custody
  | .socket j =>
    if j < k then .unused
    else if j < n then .released
    else if j = n then if got then .held else .unused
    else .unused
  | _ => .unused

/-- The sockets of `tcpConnect` are closed at once, but the one it returns. -/
theorem accounts_tcpConnect (as : List Addr) (k : ℕ) : ∃ n, k ≤ n ∧
    (∀ sockfd ∈ (tcpConnect k as).1, sockfd = n) ∧
    Accounts (sockets k n (tcpConnect k as).1.isSome) (tcpConnect k as).2 := by
  induction as generalizing k with
  | nil =>
    refine ⟨k, le_refl k, by simp [tcpConnect], fun r => ?_⟩
    cases r with
    | socket j =>
      by_cases hj : j < k <;> simp [tcpConnect, sockets, Custody.taken, Custody.given, hj]
    | _ => simp [tcpConnect, sockets, Custody.taken, Custody.given]
  | cons a rp ih =>
    cases a with
    | noSocket => exact ih k
    | refused =>
      obtain ⟨n, hn, hfd, hacc⟩ := ih (k + 1)
      refine ⟨n, by omega, hfd, fun r => ?_⟩
      obtain ⟨htook, hgave⟩ := hacc r
      cases r with
      | socket j =>
        rw [sockets] at htook hgave ⊢
        simp only [tcpConnect, List.count_cons, htook, hgave]
        rcases lt_trichotomy j k with hj | rfl | hj
        · simp [hj, hj.ne', show j < k + 1 by omega, Custody.taken, Custody.given]
        · simp [show j < n by omega, Custody.taken, Custody.given]
        · rw [if_neg (by omega : ¬ j < k + 1), if_neg (by omega : ¬ j < k)]
          simp only [beq_iff_eq, Ledger.Move.took.injEq, Ledger.Move.gave.injEq, Res.socket.injEq, hj.ne, if_false,
            reduceCtorEq, Nat.add_zero]
          exact ⟨rfl, rfl⟩
      | _ => simpa [tcpConnect, sockets] using ⟨htook, hgave⟩
    | connected =>
      refine ⟨k, le_refl k, by simp [tcpConnect], fun r => ?_⟩
      cases r with
      | socket j =>
        simp only [tcpConnect, sockets, Option.isSome_some, if_true]
        rcases lt_trichotomy j k with hj | rfl | hj
        · simp [hj, hj.ne', Custody.taken, Custody.given]
        · simp [Custody.taken, Custody.given]
        · simp [hj.ne, hj.ne', show ¬ j < k by omega, Custody.taken, Custody.given]
      | _ => simp [tcpConnect, sockets, Custody.taken, Custody.given]

/-- `newConn` without a connection frees `conn`. -/
theorem balanced_unconnected {as : List Addr} (h : (tcpConnect 0 as).1 = none) :
    Balanced (.took .conn :: (tcpConnect 0 as).2 ++ [.gave .conn]) := by
  obtain ⟨n, -, -, hacc⟩ := accounts_tcpConnect as 0
  rw [h] at hacc
  intro r
  obtain ⟨htook, hgave⟩ := hacc r
  simp only [List.cons_append, List.count_cons, List.count_append, htook, hgave]
  cases r with
  | socket j => by_cases hj : j < n <;> simp [sockets, hj, Custody.taken, Custody.given]
  | _ => simp [sockets, Custody.taken, Custody.given]

/-! ## The TLS objects of a connection -/

section
variable {tp : Tp} {s u : Wire} {l : Line} {n : ℕ}

/-- TLS objects are there from the call of `smtpSSLConnect` on. -/
theorem link_ssl (l : Line) : l.link.ssl = decide (.hand ∈ l.ops) := by
  obtain ⟨ssl, todo, trace⟩ := l
  show (trace.foldl Link.next .plain).ssl = decide (.hand ∈ trace.map Entry.op)
  induction trace using List.reverseRecOn with
  | nil => rfl
  | append_singleton es e ih =>
    rw [List.foldl_append, List.map_append]
    by_cases he : e.op = .hand
    · simp [next_hand he, he]
    · simp [next_other he, ih, Ne.symm he]

namespace Wire

theorem ssl_of_reach (h : Runs.Reach (step tp) (init n) s) (hl : l ∈ s.all) :
    l.ssl = decide (.hand ∈ l.ops) :=
  ((no_plaintext h []).1 l hl).1.symm.trans (link_ssl l)

theorem sync_frame {a : Action} (h : s.sync tp a = some u) :
    u.fresh = s.fresh ∧ s.pool.step tp a = some u.pool := by
  obtain ⟨p, hp, rfl⟩ := sync_eq h
  exact ⟨rfl, hp⟩

/-- An exchange on a connection of the pool. -/
theorem exchange_frame {c : ℕ} {io : CallIo} (a : Bool → Action) (f : Bool → Line → Line)
    (h : s.exchange (.conn c) io (fun ok l => (s.put (.conn c) (f ok l)).sync tp (a ok)) = some u) :
    u.fresh = s.fresh ∧ (u.pool = s.pool ∨ ∃ ok, s.pool.step tp (a ok) = some u.pool) := by
  obtain ⟨l, l', -, ⟨-, rfl⟩ | ⟨-, -, h⟩ | ⟨-, h⟩⟩ := exchange_cases h
  · exact ⟨rfl, Or.inl rfl⟩
  · exact ⟨(sync_frame h).1, Or.inr ⟨true, (sync_frame h).2⟩⟩
  · exact ⟨(sync_frame h).1, Or.inr ⟨false, (sync_frame h).2⟩⟩

/-- A step of a client that is not in `newConn`. -/
theorem clientStep_frame {x : Act} {i : ℕ} {ok : Bool} {pc : ClientPc} (hpc : pc.inNewConn = false)
    (h : s.clientStep tp x i ok pc = some u) : u.fresh = s.fresh ∧
      (u.pool = s.pool ∨ ∃ ok, s.pool.step tp (.client i ok) = some u.pool) := by
  cases pc with
  | connect | setup => cases hpc
  | got c isNew =>
    obtain ⟨l, -, h⟩ := Option.bind_eq_some_iff.1 h
    exact ⟨(sync_frame h).1, Or.inr ⟨ok, (sync_frame h).2⟩⟩
  | rset c =>
    exact exchange_frame (.client i) (fun ok l => if ok then l.begin (mailOps tp x.toList x.data) else l) h
  | mail c => exact exchange_frame (.client i) (fun _ l => l) h
  | _ => exact ⟨(sync_frame h).1, Or.inr ⟨ok, (sync_frame h).2⟩⟩

theorem noopStep_frame {x : Act} {c : ℕ} {ok : Bool} {pc : NoopPc}
    (h : s.noopStep tp x c ok pc = some u) : u.fresh = s.fresh ∧
      (u.pool = s.pool ∧ pc = .noop ∨ ∃ ok, s.pool.step tp (.noop c ok) = some u.pool) := by
  cases pc with
  | count =>
    obtain ⟨l, -, h⟩ := Option.bind_eq_some_iff.1 h
    exact ⟨(sync_frame h).1, Or.inr ⟨ok, (sync_frame h).2⟩⟩
  | noop =>
    obtain ⟨hfresh, hpool⟩ := exchange_frame (.noop c) (fun _ l => l) h
    exact ⟨hfresh, hpool.imp_left fun hpool => ⟨hpool, rfl⟩⟩
  | _ => exact ⟨(sync_frame h).1, Or.inr ⟨ok, (sync_frame h).2⟩⟩

/-- The pool takes a step, or a call is made. -/
theorem pool_of_step {x : Act} (h : step tp s x = some u) :
    u.pool = s.pool ∨ ∃ a, s.pool.step tp a = some u.pool := by
  unfold step at h
  cases hx : x.act with
  | client i ok =>
    rw [hx] at h
    obtain ⟨pc, -, h⟩ := Option.bind_eq_some_iff.1 h
    cases hpc : pc.inNewConn with
    | false => exact (clientStep_frame hpc h).2.imp_right fun ⟨ok, h⟩ => ⟨_, h⟩
    | true =>
      cases pc with
      | connect =>
        obtain ⟨-, h⟩ := sync_frame h
        exact Or.inr ⟨.client i ok, by cases ok <;> exact h⟩
      | setup =>
        dsimp only [clientStep] at h
        obtain ⟨l, l', -, ⟨-, rfl⟩ | ⟨-, -, h⟩ | ⟨-, h⟩⟩ := exchange_cases h
        · exact Or.inl rfl
        · exact Or.inr ⟨_, (sync_frame h).2⟩
        · exact Or.inr ⟨_, (sync_frame h).2⟩
      | _ => cases hpc
  | noop c ok =>
    rw [hx] at h
    obtain ⟨k, -, h⟩ := Option.bind_eq_some_iff.1 h
    exact (noopStep_frame h).2.imp And.left fun ⟨ok, h⟩ => ⟨_, h⟩
  | timeout i | abort | spuriousClient i | spuriousNoop c | spuriousAbort | resetToday =>
    rw [hx] at h
    exact Or.inr ⟨_, (sync_frame h).2⟩

/-- A connection of the pool has `smtpEHLO` behind it. -/
theorem ehlo_of_reach (h : Runs.Reach (step tp) (init n) s) : ∀ l ∈ s.lines, ehloOps tp <+: l.ops := by
  suffices hboth : s.Inv tp ∧ ∀ l ∈ s.lines, ehloOps tp <+: l.ops from hboth.2
  refine h.inv (I := fun s => s.Inv tp ∧ ∀ l ∈ s.lines, ehloOps tp <+: l.ops)
    ⟨inv_init tp n, by simp [init]⟩ fun s x u ⟨hI, hE⟩ hx => ?_
  have hI' := inv_step hI hx
  refine ⟨hI', fun l' hl' => ?_⟩
  obtain ⟨c, hc⟩ := List.mem_iff_getElem?.1 hl'
  by_cases hlt : c < s.lines.length
  · obtain ⟨l₁, hl₁, hpre⟩ := (grows_step hx).lines c _ (List.getElem?_eq_getElem hlt)
    obtain rfl := Option.some.inj (hc.symm.trans hl₁)
    exact (hE _ (List.getElem_mem hlt)).trans (hpre.map _)
  · -- it is new, and its client takes it to be set up
    have hnew : u.pool.conns.length ≠ s.pool.conns.length := by
      obtain ⟨hlt', -⟩ := List.getElem?_eq_some_iff.1 hc
      have hlen := hI.length
      have hlen' := hI'.length
      omega
    rcases pool_of_step hx with hsame | ⟨a, ha⟩
    · exact absurd (by rw [hsame]) hnew
    · rcases Pool.conns_length_of_trans (Pool.trans_of_step ha) with hlen | ⟨i, hi, hadd⟩
      · exact absurd hlen hnew
      · have hgot : u.pool.clients[i]? = some (.got s.pool.conns.length true) := by
          rw [hadd]
          exact (Pool.get_set hi).trans (if_pos rfl)
        obtain rfl : c = s.pool.conns.length := by
          obtain ⟨hlt', -⟩ := List.getElem?_eq_some_iff.1 hc
          have hlen' := hI'.length
          rw [hadd, Pool.connAdded, Pool.setClient_conns, List.length_append, List.length_singleton] at hlen'
          have hlen := hI.length
          omega
        obtain ⟨hsound, htodo⟩ := hI'.meets _ _ l' (Pool.needs_client hgot rfl) hc
        have hword := hsound.word
        rw [htodo, List.append_nil] at hword
        obtain ⟨rest, hrest, -⟩ := talk_ehlo hword
        exact ⟨rest, hrest.symm⟩

/-- A connection of the pool has TLS objects iff its transport asks for them. -/
theorem ssl_line (h : Runs.Reach (step tp) (init n) s) (hl : l ∈ s.lines) :
    l.ssl = decide (.hand ∈ ehloOps tp) := by
  have hall : l ∈ s.all := List.mem_append_left _ (List.mem_cons_of_mem _ hl)
  obtain ⟨c, hc⟩ := List.mem_iff_getElem?.1 hl
  obtain ⟨st, word, hword, hform⟩ := ((inv_of_reach h).kept (.conn c) l hc).form
  obtain ⟨rest, rfl, hrest⟩ := talk_ehlo hword
  rw [ssl_of_reach h hall, decide_eq_decide]
  constructor
  · intro hmem
    exact (List.mem_append.1 (hform.subset hmem)).resolve_right hrest
  · exact fun hmem => (ehlo_of_reach h l hl).subset hmem

end Wire

end

/-! ## One step -/

section
variable {tp : Tp} {l : Line} {os : List Op} {st : Stage}

/-- The one handshake of a set-up creates the objects. -/
theorem ssl_false_of_hand (h : l.Sound tp st) (hssl : l.ssl = decide (.hand ∈ l.ops))
    (htodo : l.todo = .hand :: os) : l.ssl = false := by
  have hone : (ehloOps tp).count .hand ≤ 1 := by
    unfold ehloOps
    cases hs : strcmp tp.ssl (bytes "SSL") with
    | true => simp [ssl_or_tls hs]
    | false => cases strcmp tp.ssl (bytes "TLS") <;> simp
  have hword := h.word
  obtain ⟨rest, hrest, hno⟩ := talk_ehlo hword
  have hcount : (l.ops ++ l.todo).count .hand ≤ 1 := by
    rw [hrest, List.count_append, List.count_eq_zero.2 hno]
    exact hone
  rw [htodo, List.count_append, List.count_cons_self] at hcount
  rw [hssl, decide_eq_false_iff_not, ← List.count_eq_zero]
  omega

theorem call_ssl (l : Line) (io : CallIo) :
    (l.call io).2.ssl = (l.ssl || decide (l.todo.head? = some .hand)) := by
  obtain ⟨ssl, todo, trace⟩ := l
  cases todo with
  | nil => simp [Line.call]
  | cons o os =>
    have hcall : (Line.call io ⟨ssl, o :: os, trace⟩).2.ssl = ((⟨ssl, false⟩ : Link).next ⟨o, io, ssl⟩).ssl := by
      simp only [Line.call, Link.next]
      rcases o.cmd (io.session ssl) with ⟨_ | _, w⟩ <;> rfl
    rw [hcall]
    by_cases ho : o = .hand
    · rw [next_hand ho]
      simp [ho]
    · rw [next_other ho]
      simp [ho]

/-- A call that is refused. -/
theorem call_accepts (h : l.Sound tp st) (io : CallIo) :
    (l.call io).1 = l.todo.head?.all fun o => o.accepts l.ssl io := by
  obtain ⟨ssl, todo, trace⟩ := l
  cases todo with
  | nil => rfl
  | cons o os =>
    have hword : Talk tp st (trace.map Entry.op ++ o :: os) := h.word
    rw [List.head?_cons, Option.all_some, ← cmd_accepts (proper_talk hword o (by simp)) io ssl]
    simp only [Line.call]
    rcases o.cmd (io.session ssl) with ⟨_ | _, w⟩ <;> rfl

theorem accounts_call {sockfd : ℕ} {m : List (Ledger.Move Res)} (io : CallIo)
    (hacc : Accounts (custody sockfd l.ssl true true) m) (hhand : ∀ os, l.todo = .hand :: os → l.ssl = false) :
    Accounts (custody sockfd (l.call io).2.ssl true true) (m ++ callMoves l) := by
  refine hacc.append fun r => ?_
  rw [call_ssl, callMoves]
  split
  · rename_i os htodo
    rw [hhand os htodo, htodo]
    cases r <;> simp [custody, Custody.taken, Custody.given]
  · rename_i hno
    have hhead : l.todo.head? ≠ some .hand := by
      intro hhead
      obtain ⟨os, hos⟩ := List.head?_eq_some_iff.1 hhead
      exact hno os hos
    rw [decide_eq_false hhead, Bool.or_false]
    simp

end

/-- What `newConn` has left when it has failed. -/
def lostCustody (sockfd : ℕ) (ssl : Bool) : Res → Custody
  | .conn => .released
  | .socket k => if k ≤ sockfd then .released else .unused
  | .ctx | .ssl => if ssl then .held else .unused

/-- Its error path closes the socket and frees `conn`. -/
theorem accounts_lost {sockfd : ℕ} {ssl : Bool} {m : List (Ledger.Move Res)}
    (h : Accounts (custody sockfd ssl true true) m) :
    Accounts (lostCustody sockfd ssl) (m ++ [.gave .conn, .gave (.socket sockfd)]) := by
  refine h.append fun r => ?_
  cases r with
  | socket j =>
    rcases lt_trichotomy j sockfd with hj | rfl | hj
    · simp [custody, lostCustody, hj, hj.le, hj.ne']
    · simp [custody, lostCustody, Custody.taken, Custody.given]
    · simp [custody, lostCustody, hj.ne, hj.ne', hj.not_gt, hj.not_ge]
  | conn => simp [custody, lostCustody, Custody.taken, Custody.given]
  | ctx | ssl => cases ssl <;> simp [custody, lostCustody]

theorem lost_released {sockfd : ℕ} {ssl : Bool} : (∀ r, lostCustody sockfd ssl r ≠ .held) ↔ ssl = false := by
  constructor
  · intro h
    cases ssl with
    | false => rfl
    | true => exact absurd rfl (h .ssl)
  · rintro rfl r
    cases r with
    | socket j =>
      simp only [lostCustody]
      split <;> simp
    | _ => simp [lostCustody]

namespace Stock

/-- The accounts say what is held. -/
structure Inv (tp : Tp) (s : Stock) : Prop where
  length : s.lines.length = s.wire.pool.conns.length
  fresh : ∀ n, s.wire.pool.Needs .fresh n →
    Accounts (custody s.fresh.sockfd s.wire.fresh.ssl true true) s.fresh.moves
  lines : ∀ (c : ℕ) (k : Conn) (a : Account), s.wire.pool.conns[c]? = some k → s.lines[c]? = some a →
    Accounts (custody a.sockfd (decide (.hand ∈ ehloOps tp)) k.pc.hasSock (!k.pc.freed)) a.moves

section
variable {tp : Tp} {s t : Stock} {w : Wire} {x : Act} {n : ℕ}

theorem wire_step (h : step tp s x = some t) : s.wire.step tp x.wire = some t.wire := by
  obtain ⟨w, hw, h⟩ := Option.bind_eq_some_iff.1 h
  suffices ht : t.wire = w by rw [ht]; exact hw
  split at h
  · obtain ⟨pc, -, h⟩ := Option.bind_eq_some_iff.1 h
    cases pc with
    | connect =>
      dsimp only [clientStep] at h
      split at h
      · obtain rfl := Option.some.inj h; rfl
      · obtain rfl := Option.some.inj h; rfl
      · cases h
    | setup =>
      dsimp only [clientStep] at h
      split at h
      · split at h
        · obtain rfl := Option.some.inj h; rfl
        · obtain rfl := Option.some.inj h; rfl
      · obtain rfl := Option.some.inj h; rfl
    | _ => obtain rfl := Option.some.inj h; rfl
  · obtain ⟨k, -, h⟩ := Option.bind_eq_some_iff.1 h
    cases hpc : k.pc with
    | closeHeld | close =>
      rw [hpc] at h
      obtain ⟨l, -, rfl⟩ := Option.map_eq_some_iff.1 h
      rfl
    | _ =>
      rw [hpc] at h
      obtain rfl := Option.some.inj h
      rfl
  · obtain rfl := Option.some.inj h
    rfl

/-- The threads run as they do without the accounts. -/
theorem wire_of_reach (h : Runs.Reach (step tp) (init n) s) :
    Runs.Reach (Wire.step tp) (Wire.init n) s.wire :=
  h.inv (I := fun s => Runs.Reach (Wire.step tp) (Wire.init n) s.wire) .refl
    fun _ _ _ hr hs => hr.snoc (wire_step hs)

/-- A connection whose thread does not take the step. -/
theorem lines_aside {a : Action} {p : Pool} {c : ℕ} {k : Conn} {acc : Account} (hI : s.Inv tp)
    (h : s.wire.pool.step tp a = some p) (hc : ∀ ok, a ≠ .noop c ok) (hk : p.conns[c]? = some k)
    (ha : s.lines[c]? = some acc) :
    Accounts (custody acc.sockfd (decide (.hand ∈ ehloOps tp)) k.pc.hasSock (!k.pc.freed)) acc.moves := by
  rcases Pool.aside_of_step hc h with ⟨f, hf, hget⟩ | ⟨hnone, -⟩
  · obtain ⟨k₀, hk₀, rfl⟩ := Option.map_eq_some_iff.1 (hget.symm.trans hk)
    have hacc := hI.lines c k₀ acc hk₀ ha
    rcases hf k₀ with hpc | ⟨hpc, hpc'⟩
    · rw [hpc]
      exact hacc
    · rw [hpc] at hacc
      rw [hpc']
      exact hacc
  · have hlen := List.getElem?_eq_none_iff.1 hnone
    rw [← hI.length] at hlen
    rw [List.getElem?_eq_none hlen] at ha
    cases ha

/-- `newConn` goes on with the connection it sets up. -/
theorem fresh_of_step {a : Action} {p : Pool} {m : Need} (hw : s.wire.pool.Inv)
    (h : s.wire.pool.step tp a = some p) (ha : ∀ i : ℕ, s.wire.pool.clients[i]? = some .connect → a ≠ .client i true)
    (hm : p.Needs .fresh m) : s.wire.pool.Needs .fresh m := by
  rcases Pool.needs_of_step hw h hm with hm | hm
  · exact hm
  · cases hm with
    | connect hi => exact absurd rfl (ha _ hi)

/-- A call that is not the last one of its exchange. -/
theorem Inv.same (hI : s.Inv tp) (hfresh : w.fresh = s.wire.fresh) (hp : w.pool = s.wire.pool) :
    Inv tp { s with wire := w } where
  length := by rw [hI.length, hp]
  fresh := by
    intro m hm
    rw [hfresh]
    exact hI.fresh m (hp ▸ hm)
  lines := fun c k acc hk ha => hI.lines c k acc (hp ▸ hk) ha

/-- A step that moves nothing. -/
theorem Inv.quiet {a : Action} (hW : s.wire.Inv tp) (hI : s.Inv tp) (hfresh : w.fresh = s.wire.fresh)
    (h : s.wire.pool.step tp a = some w.pool) (hc : ∀ c ok, a ≠ .noop c ok)
    (ha : ∀ i : ℕ, s.wire.pool.clients[i]? = some .connect ∨ s.wire.pool.clients[i]? = some .setup →
      a ≠ .client i true) (lost : List (List (Ledger.Move Res))) :
    Inv tp { s with wire := w, lost := lost } where
  length := hI.length.trans (Pool.conns_length h fun i hi => ha i (Or.inr hi)).symm
  fresh := by
    intro m hm
    rw [hfresh]
    exact hI.fresh m (fresh_of_step hW.pool h (fun i hi => ha i (Or.inl hi)) hm)
  lines := fun c k acc hk hacc => lines_aside hI h (hc c) hk hacc

theorem inv_connect {i : ℕ} {ok : Bool} (hW : s.wire.Inv tp) (hI : s.Inv tp)
    (hi : s.wire.pool.clients[i]? = some .connect)
    (hw : (if ok then s.wire.put .fresh (.opened (ehloOps tp ++ authOps tp)) else s.wire).sync tp
      (.client i ok) = some w) (h : s.clientStep w x ok .connect = some t) : t.Inv tp := by
  obtain ⟨n, -, hfd, hacc⟩ := accounts_tcpConnect x.addrs 0
  obtain ⟨hfresh, hp⟩ := Wire.sync_frame hw
  replace hp : s.wire.pool.step tp (.client i ok) = some w.pool := by cases ok <;> exact hp
  have hsetup : ∀ j : ℕ, s.wire.pool.clients[j]? = some .setup → Action.client i ok ≠ .client j true := by
    intro j hj he
    obtain ⟨rfl, -⟩ := Action.client.inj he
    cases hi.symm.trans hj
  dsimp only [clientStep] at h
  split at h
  · rename_i sockfd hsock
    obtain rfl := Option.some.inj h
    refine ⟨hI.length.trans (Pool.conns_length hp hsetup).symm, fun m _ => ?_, fun c k acc hk ha => ?_⟩
    · rw [show w.fresh = .opened (ehloOps tp ++ authOps tp) from hfresh]
      obtain rfl := hfd sockfd hsock
      rw [hsock] at hacc
      intro r
      obtain ⟨htook, hgave⟩ := hacc r
      simp only [List.count_cons, htook, hgave]
      cases r with
      | socket j => simp [sockets, custody]
      | _ => simp [sockets, custody, Line.opened, Custody.taken, Custody.given]
    · exact lines_aside hI hp (by simp) hk ha
  · obtain rfl := Option.some.inj h
    refine hI.quiet hW hfresh hp (by simp) (fun j hj => ?_) _
    simp
  · cases h

theorem inv_setup {i : ℕ} {ok : Bool} (hr : Runs.Reach (Wire.step tp) (Wire.init n) s.wire)
    (hr' : Runs.Reach (Wire.step tp) (Wire.init n) w) (hI : s.Inv tp)
    (hi : s.wire.pool.clients[i]? = some .setup)
    (hw : s.wire.exchange .fresh x.wire.io
      (fun ok l => (if ok then s.wire.added l else s.wire.failed l).sync tp (.client i ok)) = some w)
    (h : s.clientStep w x ok .setup = some t) : t.Inv tp := by
  have hW := Wire.inv_of_reach hr
  have hneed := Pool.needs_client hi rfl
  have hsound : s.wire.fresh.Sound tp .clear := hW.meets .fresh _ _ hneed rfl
  have hssl : s.wire.fresh.ssl = decide (.hand ∈ s.wire.fresh.ops) := Wire.ssl_of_reach hr List.mem_cons_self
  have hacc := accounts_call x.wire.io (hI.fresh _ hneed) fun os => ssl_false_of_hand hsound hssl
  have hlock : ∀ {ok : Bool} {v : Wire}, v.pool = s.wire.pool → v.sync tp (.client i ok) = some w →
      w.pool.mtx = none ∧ s.wire.pool.step tp (.client i ok) = some w.pool := by
    intro ok v hv hsync
    have hp := (Wire.sync_frame hsync).2
    rw [hv] at hp
    refine ⟨?_, hp⟩
    rw [Pool.step, hi] at hp
    rw [← Option.some.inj hp]
    cases ok <;> rfl
  have hno : w.pool.mtx = none → ∀ m, ¬ w.pool.Needs .fresh m :=
    fun hm m => Pool.not_needs_fresh (Wire.inv_of_reach hr').pool hm
  simp only [Wire.exchange, Wire.get, Option.bind_some] at hw
  dsimp only [clientStep] at h
  rcases hcall : s.wire.fresh.call x.wire.io with ⟨_ | _, l'⟩
  · -- it is given up
    rw [hcall] at h hw
    simp only [Bool.false_eq_true, if_false] at hw
    obtain rfl := Option.some.inj h
    obtain ⟨hm, hp⟩ := hlock (v := s.wire.failed l') rfl hw
    refine ⟨?_, fun m hneed' => absurd hneed' (hno hm m), fun c k acc hk ha => lines_aside hI hp (by simp) hk ha⟩
    exact hI.length.trans (Pool.conns_length hp (by simp)).symm
  · rw [hcall] at h hw hacc
    by_cases htodo : l'.todo = []
    · -- it is added
      simp only [htodo, if_true] at h hw
      obtain rfl := Option.some.inj h
      obtain ⟨hm, hp⟩ := hlock (v := s.wire.added l') rfl hw
      have hpool : w.pool = s.wire.pool.connAdded i := by
        rw [Pool.step, hi] at hp
        exact (Option.some.inj hp).symm
      have hlen : (s.wire.pool.connAdded i).conns.length = s.wire.pool.conns.length + 1 :=
        List.length_append
      refine ⟨?_, fun m hneed' => absurd hneed' (hno hm m), fun c k acc hk ha => ?_⟩
      · rw [hpool, hlen, List.length_append, hI.length]
        rfl
      · rcases lt_or_ge c s.lines.length with hlt | hge
        · rw [List.getElem?_append_left hlt] at ha
          exact lines_aside hI hp (by simp) hk ha
        · obtain ⟨hlt, -⟩ := List.getElem?_eq_some_iff.1 ha
          rw [List.length_append, List.length_singleton] at hlt
          obtain rfl : c = s.lines.length := by omega
          rw [List.getElem?_concat_length] at ha
          obtain rfl := Option.some.inj ha
          have hk' : k = Conn.added := by
            rw [hpool, hI.length] at hk
            exact Option.some.inj (hk.symm.trans List.getElem?_concat_length)
          have hl' : l' ∈ w.lines := by
            obtain ⟨p, -, rfl⟩ := Wire.sync_eq hw
            exact List.mem_append_right _ (List.mem_singleton_self l')
          rw [hk', ← Wire.ssl_line hr' hl']
          exact hacc
    · simp only [htodo, if_false] at h hw
      obtain rfl := Option.some.inj h
      obtain rfl := Option.some.inj hw
      exact ⟨hI.length, fun m _ => hacc, hI.lines⟩

/-- The thread of a connection closes and frees it. -/
theorem inv_noop {c : ℕ} {ok : Bool} {k : Conn} (hr : Runs.Reach (Wire.step tp) (Wire.init n) s.wire)
    (hI : s.Inv tp) (hk : s.wire.pool.conns[c]? = some k)
    (hw : s.wire.noopStep tp x.wire c ok k.pc = some w) (h : s.noopStep w c k.pc = some t) : t.Inv tp := by
  have hW := Wire.inv_of_reach hr
  obtain ⟨hfresh, ⟨hp, hpc⟩ | ⟨ok', hp⟩⟩ := Wire.noopStep_frame hw
  · rw [hpc] at h
    obtain rfl := Option.some.inj h
    exact hI.same hfresh hp
  · have hlen : w.pool.conns.length = s.wire.pool.conns.length := Pool.conns_length hp (by simp)
    have hneed : ∀ m, w.pool.Needs .fresh m →
        Accounts (custody s.fresh.sockfd w.fresh.ssl true true) s.fresh.moves := by
      intro m hm
      rw [hfresh]
      exact hI.fresh m (fresh_of_step hW.pool hp (by simp) hm)
    obtain ⟨k', hk', hnext⟩ := Pool.next_noopStep hk (by rwa [Pool.step, hk] at hp)
    have moves : ∀ f : Account → Account,
        (∀ acc : Account, s.lines[c]? = some acc →
          Accounts (custody acc.sockfd (decide (.hand ∈ ehloOps tp)) k.pc.hasSock (!k.pc.freed)) acc.moves →
          Accounts (custody (f acc).sockfd (decide (.hand ∈ ehloOps tp)) k'.pc.hasSock (!k'.pc.freed))
            (f acc).moves) →
        Inv tp { s with wire := w, lines := s.lines.modify c f } := by
      intro f hf
      refine ⟨?_, hneed, fun d k₁ acc hk₁ ha => ?_⟩
      · rw [List.length_modify, hI.length]
        exact hlen.symm
      · rw [List.getElem?_modify] at ha
        obtain ⟨acc₀, ha₀, hacc₀⟩ := Option.map_eq_some_iff.1 ha
        by_cases hd : c = d
        · subst hd
          obtain rfl := Option.some.inj (hk'.symm.trans hk₁)
          rw [if_pos rfl] at hacc₀
          rw [← hacc₀]
          exact hf acc₀ ha₀ (hI.lines c k acc₀ hk ha₀)
        · rw [if_neg hd] at hacc₀
          rw [← hacc₀]
          exact lines_aside hI hp (by simp [hd]) hk₁ ha₀
    -- it goes on with what it holds
    have same : k'.pc.hasSock = k.pc.hasSock → k'.pc.freed = k.pc.freed →
        some { s with wire := w } = some t → t.Inv tp := by
      intro hsock hfreed ht
      obtain rfl := Option.some.inj ht
      have hid := moves id fun acc _ hacc => by rw [hsock, hfreed]; exact hacc
      rwa [List.modify_id] at hid
    cases hpc : k.pc with
    | closeHeld | close =>
      rw [hpc] at h hnext
      obtain ⟨l, hl, rfl⟩ := Option.map_eq_some_iff.1 h
      refine moves _ fun acc _ hacc => hacc.append fun r => ?_
      rw [hpc, List.mem_singleton.1 hnext, Wire.ssl_line hr (List.mem_of_getElem? hl)]
      exact custody_close r
    | destroy =>
      rw [hpc] at h hnext
      obtain rfl := Option.some.inj h
      refine moves _ fun acc _ hacc => hacc.append fun r => ?_
      rw [hpc, List.mem_singleton.1 hnext]
      cases r <;> simp [custody, Account.note, NoopPc.hasSock, NoopPc.freed, Custody.taken, Custody.given]
    | _ =>
      rw [hpc] at h
      obtain ⟨hsock, hfreed⟩ := NoopPc.next_same hnext (by simp [hpc])
      exact same hsock hfreed h

/-- **One step.** -/
theorem inv_step (hr : Runs.Reach (step tp) (init n) s) (hI : s.Inv tp) (h : step tp s x = some t) :
    t.Inv tp := by
  have hrw := wire_of_reach hr
  have hrt := wire_of_reach (hr.snoc h)
  have hw := wire_step h
  have hW := Wire.inv_of_reach hrw
  obtain ⟨w, hw', h⟩ := Option.bind_eq_some_iff.1 h
  obtain rfl := Option.some.inj (hw'.symm.trans hw)
  unfold Wire.step at hw
  cases hx : x.wire.act with
  | client i ok =>
    simp only [hx] at h hw
    obtain ⟨pc, hi, h⟩ := Option.bind_eq_some_iff.1 h
    rw [hi, Option.bind_some] at hw
    by_cases hpc : pc.inNewConn
    · cases pc with
      | connect => exact inv_connect hW hI hi hw h
      | setup => exact inv_setup hrw hrt hI hi hw h
      | _ => cases hpc
    · have ht : some { s with wire := t.wire } = some t := by cases pc <;> first | exact h | exact absurd rfl hpc
      rw [← Option.some.inj ht]
      obtain ⟨hfresh, hp | ⟨ok', hp⟩⟩ := Wire.clientStep_frame (by simpa using hpc) hw
      · exact hI.same hfresh hp
      · refine hI.quiet hW hfresh hp (by simp) (fun j hj he => ?_) s.lost
        obtain ⟨rfl, -⟩ := Action.client.inj he
        rw [hi] at hj
        rcases hj with hj | hj <;> cases hj <;> exact hpc rfl
  | noop c ok =>
    simp only [hx] at h hw
    obtain ⟨k, hk, h⟩ := Option.bind_eq_some_iff.1 h
    rw [hk, Option.bind_some] at hw
    exact inv_noop hrw hI hk hw h
  | timeout i | abort | spuriousClient i | spuriousNoop c | spuriousAbort | resetToday =>
    simp only [hx] at h hw
    obtain ⟨hfresh, hp⟩ := Wire.sync_frame hw
    rw [← Option.some.inj h]
    exact hI.quiet hW hfresh hp (by simp) (by simp) s.lost

theorem inv_init (tp : Tp) (n : ℕ) : (init n).Inv tp where
  length := rfl
  fresh := by
    intro m hm
    exact absurd hm (Pool.not_needs_fresh (Pool.inv_init n) rfl)
  lines := by
    intro c k a hk
    cases hk

theorem inv_of_reach (h : Runs.Reach (step tp) (init n) s) : s.Inv tp := by
  obtain ⟨p, hp⟩ := h
  induction hp with
  | nil => exact inv_init tp n
  | snoc hp ha ih => exact inv_step hp.reach ih ha

/-! ## The balance -/

/-- All that a connection has taken has been given back once: when `newConn` has
    failed, and when `endConn` is over. -/
structure Settled (s : Stock) : Prop where
  lost : ∀ m ∈ s.lost, Balanced m
  ended : ∀ (c : ℕ) (k : Conn) (a : Account), s.wire.pool.conns[c]? = some k → k.pc.freed →
    s.lines[c]? = some a → Balanced a.moves

/-- `newConn` is about to fail, and has called `smtpSSLConnect`. -/
def abandons (s : Stock) (x : Act) : Bool :=
  match x.wire.act with
  | .client i _ =>
    s.wire.pool.clients[i]? = some .setup &&
      s.wire.fresh.todo.head?.any fun o =>
        !o.accepts s.wire.fresh.ssl x.wire.io && (s.wire.fresh.ssl || o = .hand)
  | _ => false

/-- What `endConn` has ended is balanced. -/
theorem balanced_ended (hI : s.Inv tp) {c : ℕ} {k : Conn} {a : Account}
    (hk : s.wire.pool.conns[c]? = some k) (hfreed : k.pc.freed) (ha : s.lines[c]? = some a) :
    Balanced a.moves := by
  have hsock : k.pc.hasSock = false := by
    revert hfreed
    cases k.pc <;> simp [NoopPc.freed, NoopPc.hasSock]
  refine (Ledger.balanced_iff (hI.lines c k a hk ha)).2 fun r => ?_
  rw [hsock, hfreed]
  cases r with
  | socket j =>
    simp only [custody, Bool.false_eq_true, if_false]
    split_ifs <;> simp
  | conn => simp [custody]
  | ctx | ssl =>
    simp only [custody, Bool.false_eq_true, if_false]
    split <;> simp

/-- **What `newConn` leaves when it fails.** -/
theorem lost_of_step (hr : Runs.Reach (step tp) (init n) s) (h : step tp s x = some t) :
    t.lost = s.lost ∧ s.abandons x = false ∨
      ∃ m, t.lost = s.lost ++ [m] ∧ (Balanced m ↔ s.abandons x = false) := by
  have hrw := wire_of_reach hr
  have hW := Wire.inv_of_reach hrw
  obtain ⟨w, hw, h⟩ := Option.bind_eq_some_iff.1 h
  cases hx : x.wire.act with
  | client i ok =>
    simp only [hx] at h
    obtain ⟨pc, hi, h⟩ := Option.bind_eq_some_iff.1 h
    -- only the client in `newConn` can give a connection up
    have hsetup : pc ≠ .setup → s.abandons x = false := by
      intro hpc
      simp [abandons, hx, hi, hpc]
    cases pc with
    | connect =>
      dsimp only [clientStep] at h
      cases hsock : (tcpConnect 0 x.addrs).1 with
      | some sockfd =>
        rw [hsock] at h
        cases ok with
        | true =>
          obtain rfl := Option.some.inj h
          exact Or.inl ⟨rfl, hsetup (by simp)⟩
        | false => cases h
      | none =>
        rw [hsock] at h
        cases ok with
        | true => cases h
        | false =>
          obtain rfl := Option.some.inj h
          exact Or.inr ⟨_, rfl, iff_of_true (balanced_unconnected hsock) (hsetup (by simp))⟩
    | setup =>
      have hneed := Pool.needs_client hi rfl
      have hsound : s.wire.fresh.Sound tp .clear := hW.meets .fresh _ _ hneed rfl
      have hssl : s.wire.fresh.ssl = decide (.hand ∈ s.wire.fresh.ops) := Wire.ssl_of_reach hrw List.mem_cons_self
      have hacc := accounts_call x.wire.io ((inv_of_reach hr).fresh _ hneed) fun os => ssl_false_of_hand hsound hssl
      have hcall := call_accepts hsound x.wire.io
      have habandons : s.abandons x = (!(s.wire.fresh.call x.wire.io).1 && (s.wire.fresh.call x.wire.io).2.ssl) := by
        rw [hcall, call_ssl, abandons, hx]
        simp only [hi]
        cases s.wire.fresh.todo.head? <;> simp
      dsimp only [clientStep] at h
      rcases hio : s.wire.fresh.call x.wire.io with ⟨_ | _, l'⟩
      · rw [hio] at h hacc habandons
        obtain rfl := Option.some.inj h
        refine Or.inr ⟨_, rfl, (Ledger.balanced_iff (accounts_lost hacc)).trans ?_⟩
        rw [lost_released, habandons]
        simp
      · rw [hio] at h habandons
        refine Or.inl ⟨?_, by simp [habandons]⟩
        dsimp only at h
        split at h <;> (obtain rfl := Option.some.inj h; rfl)
    | _ =>
      obtain rfl := Option.some.inj h
      exact Or.inl ⟨rfl, hsetup (by simp)⟩
  | noop c ok =>
    simp only [hx] at h
    obtain ⟨k, -, h⟩ := Option.bind_eq_some_iff.1 h
    refine Or.inl ⟨?_, by simp [abandons, hx]⟩
    cases hpc : k.pc with
    | closeHeld | close =>
      rw [hpc] at h
      obtain ⟨l, -, rfl⟩ := Option.map_eq_some_iff.1 h
      rfl
    | _ =>
      rw [hpc] at h
      obtain rfl := Option.some.inj h
      rfl
  | timeout i | abort | spuriousClient i | spuriousNoop c | spuriousAbort | resetToday =>
    simp only [hx] at h
    obtain rfl := Option.some.inj h
    exact Or.inl ⟨rfl, by simp [abandons, hx]⟩

/-- **The balance of the connections.**  In a run all that `tcpConnect`,
    `newConn` and `smtpSSLConnect` take is given back once, iff no `newConn`
    fails after its call of `smtpSSLConnect`: its error path closes the socket
    and frees `conn`, but not the TLS objects. -/
theorem balance_iff {p : List (Stock × Act)} (h : Runs.Path (step tp) (init n) p s) :
    (∀ t ∈ Runs.visited p s, t.Settled) ↔ ∀ y ∈ p, y.1.abandons y.2 = false := by
  refine h.visited_iff (J := fun s => ∀ m ∈ s.lost, Balanced m) (G := Settled)
    (C := fun s x => s.abandons x = false) (by simp [init]) ?_ ?_ ?_
  · exact fun s hr hJ => ⟨hJ, fun c k a hk hf ha => balanced_ended (inv_of_reach hr) hk hf ha⟩
  · intro s x t hr hJ hC ht
    rcases lost_of_step hr ht with ⟨hlost, -⟩ | ⟨m, hlost, hm⟩
    · rw [hlost]
      exact hJ
    · rw [hlost]
      exact List.forall_mem_append.2 ⟨hJ, List.forall_mem_singleton.2 (hm.2 hC)⟩
  · intro s x t hr _ hC ht hS
    rcases lost_of_step hr ht with ⟨-, hno⟩ | ⟨m, hlost, hm⟩
    · exact hC hno
    · exact hC (hm.1 (hS.lost m (by rw [hlost]; simp)))

end

/-- A transport with SSL. -/
def tpSsl : Tp := { tpPlain with ssl := bytes "SSL" }

/-- A step of the client 0 that connects at once, and whose call meets this. -/
def meeting (reply : Bytes) (hand : Bool) (h : reply.length ≤ 1023) : Act :=
  ⟨⟨.client 0 true, ⟨.all, .data ⟨reply, h⟩, hand, []⟩, [], []⟩, [.connected]⟩

/-- The server does not speak TLS: the TLS objects are lost. -/
theorem ssl_leaked : ∃ s : Stock, Runs.Reach (step tpSsl) (init 1) s ∧
    s.lost = [[.took .conn, .took (.socket 0), .took .ctx, .took .ssl, .gave .conn, .gave (.socket 0)]] ∧
    ¬ s.Settled := by
  have h : ((Runs.exec (step tpSsl) (init 1)
      (List.replicate 4 (meeting (bytes "220\n") false (by decide)))).map Stock.lost) =
      some [[.took .conn, .took (.socket 0), .took .ctx, .took .ssl, .gave .conn, .gave (.socket 0)]] := by
    decide +kernel
  obtain ⟨s, hs, hlost⟩ := Option.map_eq_some_iff.1 h
  refine ⟨s, Runs.Reach.refl.of_exec hs, hlost, fun hS => ?_⟩
  have hssl := (hS.lost _ (by rw [hlost]; exact List.mem_singleton_self _) .ssl).2
  revert hssl
  decide

/-- STARTTLS is refused: what has been taken so far is given back. -/
theorem balance_iff_tls : ∃ (p : List (Stock × Act)) (s : Stock), Runs.Path (step tpTls) (init 1) p s ∧
    s.lost = [[.took .conn, .took (.socket 0), .gave .conn, .gave (.socket 0)]] ∧
    ∀ t ∈ Runs.visited p s, t.Settled := by
  have h : ((Runs.exec (step tpTls) (init 1)
      (List.replicate 5 (meeting (bytes "220\n") true (by decide)) ++
        List.replicate 3 (meeting (bytes "250\n") true (by decide)))).map Stock.lost) =
      some [[.took .conn, .took (.socket 0), .gave .conn, .gave (.socket 0)]] := by
    decide +kernel
  obtain ⟨s, hs, hlost⟩ := Option.map_eq_some_iff.1 h
  refine ⟨_, s, Runs.Path.trace hs, hlost, (balance_iff (Runs.Path.trace hs)).2 ?_⟩
  decide +kernel

end Stock

end SmtpProxy
