/-
  The discipline of an SMTP session over the life of its connection, for every
  behaviour of the server and every interleaving of the threads that use it.

  * `Talk`: the words of a session that has no exchange under way;
  * `Line.Disciplined`: what has been written on a connection begins such a
    word, all of it but the last call has been accepted, and every command
    comes after one reply to the command before;
  * `Wire.Inv`: a connection is as the thread that uses it next takes it to be
    (`Pool.Needs`);
  * `session_discipline`: every connection is disciplined in every run, and one
    on which something was refused stays as it is.
-/
import SmtpProxy.Wire

namespace SmtpProxy

open CString

/-! ## Calls that are accepted -/

/-- The reply line that `poll` and `recv` give. -/
def CallIo.reply (io : CallIo) : Option Bytes :=
  match io.recv with
  | .data bs => replyOf bs.1
  | _ => none

/-- The step is accepted: `send` or `SSL_write` does what `smtpWrite` asks for, or a
    reply with the code is read. -/
def Op.accepts : Op → Bool → CallIo → Bool
  | .hand, _, io => io.hand
  | .write data, tls, io => io.send.passes tls (lenOf data)
  | .expect code, _, io => io.reply.any fun line => strncmp code line 3
  | .either code code', _, io => io.reply.any fun line => strncmp code line 3 || strncmp code' line 3
  | .fail _, _, _ => false

def Entry.accepted (e : Entry) : Bool := e.op.accepts e.tls e.io

/-- An `smtpExpect`. -/
def Op.reads : Op → Bool
  | .expect _ | .either _ _ => true
  | _ => false

/-- A command or a reply, and not a TLS handshake. -/
def Op.talks : Op → Bool
  | .write _ | .expect _ | .either _ _ => true
  | _ => false

/-- A reply is accepted when its line has one of the codes. -/
theorem reply_accepts {f : Cmd} {codes : List Bytes} (h : Implements f [.expect codes]) (io : CallIo)
    (ssl : Bool) : (f (io.session ssl)).1 =
      io.reply.any fun line => codes.any fun code => strncmp code line 3 := by
  have hmeets := h (io.session ssl)
  have hreply : (io.session ssl).net.reply =
      io.reply.map fun line => (line, { (io.session ssl).net with recvs := [] }) := by
    obtain ⟨send, recv, hand, err⟩ := io
    cases recv <;> rfl
  simp only [walk, Step.walk, hreply] at hmeets
  cases hline : io.reply with
  | none =>
    rw [hline] at hmeets
    exact hmeets.1
  | some line =>
    rw [hline] at hmeets
    simp only [Option.map_some] at hmeets
    rw [Option.any_some]
    cases hcode : codes.any fun code => strncmp code line 3 with
    | true =>
      rw [hcode] at hmeets
      exact hmeets.1
    | false =>
      rw [hcode] at hmeets
      exact hmeets.1

/-- The result of a call of the source. -/
theorem cmd_accepts {o : Op} (h : o.Proper) (io : CallIo) (ssl : Bool) :
    (o.cmd (io.session ssl)).1 = o.accepts ssl io := by
  cases o with
  | hand =>
    obtain ⟨send, recv, hand, err⟩ := io
    cases hand <;> rfl
  | write data => exact smtpWrite_result data _
  | fail text => rfl
  | expect code =>
    rw [reply_accepts (implements_op h)]
    simp only [Op.accepts, List.any_cons, List.any_nil, Bool.or_false]
  | either code code' =>
    rw [reply_accepts (implements_op h)]
    simp only [Op.accepts, List.any_cons, List.any_nil, Bool.or_false]

/-! ## Words -/

/-- The calls of a session that has no exchange under way: the set-up, then
    mail transactions and NOOPs, with RSET before each transaction but the first. -/
inductive Talk (tp : Tp) : Stage → List Op → Prop
  | setup : Talk tp .clear (ehloOps tp ++ authOps tp)
  | mail {ops : List Op} (toList : List Bytes) (data : Bytes) :
      Talk tp .clear ops → Talk tp .used (ops ++ mailOps tp toList data)
  | noop {ops : List Op} : Talk tp .used ops → Talk tp .used (ops ++ noopOps)
  | rset {ops : List Op} : Talk tp .used ops → Talk tp .clear (ops ++ rsetOps)

variable {tp : Tp} {st : Stage} {os : List Op}

theorem proper_talk (h : Talk tp st os) : ∀ o ∈ os, o.Proper := by
  induction h with
  | setup => exact proper_setup tp
  | mail toList data h ih => exact List.forall_mem_append.2 ⟨ih, proper_mail tp toList data⟩
  | noop h ih => exact List.forall_mem_append.2 ⟨ih, proper_noop⟩
  | rset h ih => exact List.forall_mem_append.2 ⟨ih, proper_rset⟩

/-- Commands and replies take turns: whether a reply is due after the calls, if
    one is due before them. -/
def turn : Bool → List Op → Option Bool
  | due, [] => some due
  | due, .write _ :: os => if due then none else turn true os
  | due, .expect _ :: os | due, .either _ _ :: os => if due then turn false os else none
  | due, .hand :: os | due, .fail _ :: os => turn due os

theorem turn_append (due : Bool) (os os' : List Op) :
    turn due (os ++ os') = (turn due os).bind fun due => turn due os' := by
  induction os generalizing due with
  | nil => rfl
  | cons o os ih => cases o <;> cases due <;> simp [turn, ih]

/-- Handshakes do not count. -/
theorem turn_filter (due : Bool) (os : List Op) : turn due (os.filter Op.talks) = turn due os := by
  induction os generalizing due with
  | nil => rfl
  | cons o os ih =>
    cases ho : o.talks with
    | false => cases o <;> first | exact ih due | cases ho
    | true =>
      rw [List.filter_cons_of_pos ho]
      cases o <;> simp only [turn, ih]

theorem turn_ehlo (tp : Tp) : turn true (ehloOps tp) = some false := by
  unfold ehloOps
  cases strcmp tp.ssl (bytes "SSL") <;> cases strcmp tp.ssl (bytes "TLS") <;> rfl

theorem turn_auth (tp : Tp) : turn false (authOps tp) = some false := by
  unfold authOps
  split_ifs
  · rfl
  · rfl
  · rfl

theorem turn_rcpt (toList : List Bytes) : turn false (rcptOps toList) = some false := by
  induction toList with
  | nil => rfl
  | cons to_ toList ih =>
    rw [rcptOps_cons, turn_append]
    exact ih

theorem turn_mail (tp : Tp) (toList : List Bytes) (data : Bytes) :
    turn false (mailOps tp toList data) = some false := by
  rw [mailOps, turn_append, turn_append, turn, turn, if_neg (by simp), if_pos rfl, turn,
    Option.bind_some, turn_rcpt]
  rfl

theorem turn_talk (h : Talk tp st os) : turn true os = some false := by
  induction h with
  | setup => rw [turn_append, turn_ehlo, Option.bind_some, turn_auth]
  | mail toList data h ih => rw [turn_append, ih, Option.bind_some, turn_mail]
  | noop h ih => rw [turn_append, ih]; rfl
  | rset h ih => rw [turn_append, ih]; rfl

/-- Where calls take turns, a command comes right after a reply, and the reply
    after the command before. -/
theorem turn_before {pre post : List Op} {o : Op} (h : turn true (pre ++ o :: post) ≠ none)
    (htalks : ∀ x ∈ pre ++ o :: post, x.talks) (ho : o.reads = false) :
    ∃ pre' r, pre = pre' ++ [r] ∧ r.reads ∧ ∀ y ∈ pre'.getLast?, y.reads = false := by
  -- what is due after a call that talks
  have last : ∀ (os : List Op) (o : Op) (due : Bool), o.talks →
      turn true (os ++ [o]) = some due → due = !o.reads ∧ turn true os = some o.reads := by
    intro os o due ho hdue
    rw [turn_append] at hdue
    obtain ⟨due', hos, hdue⟩ := Option.bind_eq_some_iff.1 hdue
    rw [hos]
    revert ho hdue
    cases o <;> cases due' <;> simp +contextual [turn, Op.reads, Op.talks, eq_comm]
  have htalk : ∀ o ∈ pre, o.talks := fun o ho => htalks o (List.mem_append_left _ ho)
  rw [List.append_cons, turn_append] at h
  have hturn : turn true (pre ++ [o]) ≠ none := by
    intro hnone
    rw [hnone] at h
    exact h rfl
  obtain ⟨due, hdue⟩ := Option.ne_none_iff_exists'.1 hturn
  have hpre := (last pre o due (htalks o (by simp)) hdue).2
  rw [ho] at hpre
  rcases List.eq_nil_or_concat pre with rfl | ⟨pre', r, rfl⟩
  · cases hpre
  · rw [List.concat_eq_append] at hpre htalk ⊢
    obtain ⟨hr, hpre'⟩ := last pre' r false (htalk r (by simp)) hpre
    have hreads : r.reads = true := by simpa using hr.symm
    refine ⟨pre', r, rfl, hreads, fun y hy => ?_⟩
    obtain ⟨pre'', rfl⟩ := List.getLast?_eq_some_iff.1 hy
    obtain ⟨hy, -⟩ := last pre'' y true (htalk y (by simp)) (hreads ▸ hpre')
    simpa using hy.symm

namespace Line

variable {l : Line} {io : CallIo}

def ops (l : Line) : List Op := l.trace.map Entry.op

/-- **The discipline of a session.** -/
structure Disciplined (tp : Tp) (l : Line) : Prop where
  /-- What has been called begins a word. -/
  form : ∃ st word, Talk tp st word ∧ l.ops <+: word
  /-- Only the last call may have been refused. -/
  accepted : ∀ e ∈ l.trace.dropLast, e.accepted
  /-- A command is written after one reply to the command before, if there is
      one, and the reply has been accepted. -/
  answered : ∀ pre e post, l.trace.filter (fun e => e.op.talks) = pre ++ e :: post →
    e.op.reads = false → ∃ pre' r, pre = pre' ++ [r] ∧ r.op.reads ∧ r.accepted ∧
      ∀ y ∈ pre'.getLast?, y.op.reads = false

/-- With the calls still to come it will be a word, and all so far is accepted. -/
structure Sound (tp : Tp) (st : Stage) (l : Line) : Prop where
  word : Talk tp st (l.ops ++ l.todo)
  accepted : ∀ e ∈ l.trace, e.accepted

/-- What a need says of the session. -/
def Meets (tp : Tp) (l : Line) : Need → Prop
  | .rest st => l.Sound tp st ∧ l.todo = []
  | .talk st => l.Sound tp st

structure Kept (tp : Tp) (l : Line) : Prop where
  form : ∃ st word, Talk tp st word ∧ l.ops <+: word
  accepted : ∀ e ∈ l.trace.dropLast, e.accepted

theorem Sound.kept (h : l.Sound tp st) : l.Kept tp where
  form := ⟨st, _, h.word, List.prefix_append _ _⟩
  accepted := fun e he => h.accepted e (List.dropLast_subset _ he)

theorem Kept.disciplined (h : l.Kept tp) : l.Disciplined tp where
  form := h.form
  accepted := h.accepted
  answered := by
    intro pre e post hsplit he
    obtain ⟨st, word, hword, rest, rfl⟩ := h.form
    have hturn : turn true (l.ops.filter Op.talks) ≠ none := by
      intro hnone
      have htalk := turn_talk hword
      rw [turn_append, ← turn_filter, hnone] at htalk
      cases htalk
    have hops : l.ops.filter Op.talks = pre.map Entry.op ++ e.op :: post.map Entry.op := by
      rw [ops, List.filter_map, ← List.map_cons, ← List.map_append, ← hsplit]
      rfl
    rw [hops] at hturn
    have htalks : ∀ o ∈ pre.map Entry.op ++ e.op :: post.map Entry.op, o.talks := by
      rw [← hops]
      exact fun o ho => (List.mem_filter.1 ho).2
    obtain ⟨pre', r, hpre, hr, hlast⟩ := turn_before hturn htalks he
    obtain ⟨es, rs, rfl, rfl, hrs⟩ := List.map_eq_append_iff.1 hpre
    obtain ⟨x, rfl, rfl⟩ := List.map_eq_singleton_iff.1 hrs
    refine ⟨es, x, rfl, hr, ?_, fun y hy => hlast _ ?_⟩
    · -- the reply is not the last call, as the command comes after it
      obtain ⟨as, bs, htrace, has, hbs⟩ := List.filter_eq_append_iff.1 hsplit
      have hx : x ∈ as := (List.mem_filter.1 (by rw [has]; simp)).1
      have hne : bs ≠ [] := by
        rintro rfl
        cases hbs
      refine h.accepted x ?_
      rw [htrace, List.dropLast_append_of_ne_nil hne]
      exact List.mem_append_left _ hx
    · rw [List.getLast?_map]
      exact Option.mem_map_of_mem _ hy

theorem trace_call (l : Line) (io : CallIo) : l.trace <+: (l.call io).2.trace := by
  obtain ⟨ssl, todo, trace⟩ := l
  cases todo with
  | nil => exact List.prefix_rfl
  | cons o os =>
    simp only [call]
    rcases o.cmd (io.session ssl) with ⟨_ | _, w⟩
    · exact List.prefix_append _ _
    · exact List.prefix_append _ _

/-- **One call.** -/
theorem Sound.call (h : l.Sound tp st) (io : CallIo) :
    (l.call io).2.Kept tp ∧ ((l.call io).1 = true → (l.call io).2.Sound tp st) := by
  obtain ⟨ssl, todo, trace⟩ := l
  cases todo with
  | nil => exact ⟨h.kept, fun _ => h⟩
  | cons o os =>
    have hword : Talk tp st (trace.map Entry.op ++ o :: os) := h.word
    have hcmd := cmd_accepts (proper_talk hword o (by simp)) io ssl
    simp only [Line.call]
    rcases hw : o.cmd (io.session ssl) with ⟨_ | _, w⟩
    · refine ⟨⟨⟨st, _, hword, ?_⟩, ?_⟩, fun hok => by cases hok⟩
      · exact ⟨os, by simp [ops]⟩
      · simp only [List.dropLast_concat]
        exact h.accepted
    · have hs : Line.Sound tp st ⟨w.ssl, os, trace ++ [⟨o, io, ssl⟩]⟩ := by
        refine ⟨?_, fun e he => ?_⟩
        · rw [ops, List.map_append, List.append_assoc]
          exact hword
        · rcases List.mem_append.1 he with he | he
          · exact h.accepted e he
          · rw [List.mem_singleton.1 he]
            rw [hw] at hcmd
            exact hcmd.symm
      exact ⟨hs.kept, fun _ => hs⟩

/-- The next exchange of a session at rest. -/
theorem Sound.begin {st' : Stage} (h : l.Sound tp st) (htodo : l.todo = [])
    (hw : Talk tp st l.ops → Talk tp st' (l.ops ++ os)) : (l.begin os).Sound tp st' where
  word := by
    have hword := h.word
    rw [htodo, List.append_nil] at hword
    exact hw hword
  accepted := h.accepted

theorem sound_opened (tp : Tp) : (opened (ehloOps tp ++ authOps tp)).Sound tp .clear where
  word := .setup
  accepted := by
    intro e he
    cases he

theorem kept_opened (tp : Tp) : (opened []).Kept tp where
  form := ⟨.clear, _, .setup, List.nil_prefix⟩
  accepted := by
    intro e he
    cases he

end Line

namespace Wire

open Pool (Needs Grants)

/-- The connections are as the threads that use them next take them to be. -/
structure Inv (tp : Tp) (s : Wire) : Prop where
  pool : s.pool.Inv
  length : s.lines.length = s.pool.conns.length
  meets : ∀ ch n l, s.pool.Needs ch n → s.get ch = some l → l.Meets tp n
  kept : ∀ ch l, s.get ch = some l → l.Kept tp
  lost : ∀ l ∈ s.lost, l.Kept tp

section
variable {s t u : Wire} {p : Pool} {ch : Chan} {l : Line} {a : Action} {n : Need}

theorem get_put (hl : ∃ l, s.get ch = some l) (ch' : Chan) :
    (s.put ch l).get ch' = if ch' = ch then some l else s.get ch' := by
  cases ch with
  | fresh => cases ch' <;> simp [get, put]
  | conn c =>
    obtain ⟨l', hl⟩ := hl
    cases ch' with
    | fresh => simp [get, put]
    | conn c' =>
      show (s.lines.set c l)[c']? = _
      rw [Pool.get_set hl]
      by_cases h : c' = c <;> simp [h, get]

theorem inv_init (tp : Tp) (n : ℕ) : (init n).Inv tp where
  pool := Pool.inv_init n
  length := rfl
  meets := by
    intro ch m l hn hl
    rcases hn with ⟨i, pc, hi, hn⟩ | ⟨c, k, rfl, hk, hn⟩
    · rw [Pool.client_init hi] at hn
      cases hn
    · cases hk
  kept := by
    intro ch l hl
    cases ch with
    | fresh =>
      obtain rfl := Option.some.inj hl
      exact Line.kept_opened tp
    | conn c => cases hl
  lost := by
    intro l hl
    cases hl

/-! ## One step -/

/-- A step of the pool: the connections in whose exchanges it has no part stay
    as they are, and the others are as they are taken to be afterwards. -/
theorem Inv.of_pool (hI : s.Inv tp) (h : s.pool.step tp a = some p) (hp : u.pool = p)
    (hlen : u.lines.length = p.conns.length)
    (hget : ∀ ch l, u.get ch = some l → (s.get ch = some l ∧ ∀ n, ¬ Grants s.pool a ch n) ∨
      (l.Kept tp ∧ ∀ n, p.Needs ch n → l.Meets tp n))
    (hlost : ∀ l ∈ u.lost, l ∈ s.lost ∨ l.Kept tp) : u.Inv tp where
  pool := hp ▸ Pool.inv_trans hI.pool (Pool.trans_of_step h)
  length := hp ▸ hlen
  meets := by
    intro ch n l hn hl
    rw [hp] at hn
    rcases hget ch l hl with ⟨hl, hg⟩ | ⟨-, hmeets⟩
    · rcases Pool.needs_of_step hI.pool h hn with hn | hn
      · exact hI.meets ch n l hn hl
      · exact absurd hn (hg n)
    · exact hmeets n hn
  kept := by
    intro ch l hl
    rcases hget ch l hl with ⟨hl, -⟩ | ⟨hk, -⟩
    · exact hI.kept ch l hl
    · exact hk
  lost := by
    intro l hl
    rcases hlost l hl with hl | hk
    · exact hI.lost l hl
    · exact hk

theorem sync_eq (h : s.sync tp a = some u) :
    ∃ p, s.pool.step tp a = some p ∧ u = { s with pool := p } := by
  obtain ⟨p, hp, rfl⟩ := Option.map_eq_some_iff.1 h
  exact ⟨p, hp, rfl⟩

/-- A step that has no part in an exchange. -/
theorem inv_sync (hI : s.Inv tp) (h : s.sync tp a = some u)
    (hg : ∀ ch n, ¬ Grants s.pool a ch n) : u.Inv tp := by
  obtain ⟨p, hp, rfl⟩ := sync_eq h
  refine hI.of_pool hp rfl ?_ (fun ch l hl => Or.inl ⟨?_, hg ch⟩) fun l hl => Or.inl hl
  · refine hI.length.trans (Pool.conns_length hp fun i hi ha => ?_).symm
    subst ha
    exact hg _ _ (.setup hi)
  · cases ch <;> exact hl

theorem lines_put (s : Wire) (ch : Chan) (l : Line) : (s.put ch l).lines.length = s.lines.length := by
  cases ch with
  | fresh => rfl
  | conn c => exact List.length_set

/-- A step that begins or ends an exchange on a connection. -/
theorem inv_put_sync (hI : s.Inv tp) (hl : ∃ l, s.get ch = some l)
    (h : (s.put ch l).sync tp a = some u) (hg : ∀ ch' n, Grants s.pool a ch' n → ch' = ch)
    (hnew : ∀ i : ℕ, s.pool.clients[i]? = some .setup → a ≠ .client i true) (hk : l.Kept tp)
    (hm : ∀ p, s.pool.step tp a = some p → p.Inv → ∀ n, p.Needs ch n → l.Meets tp n) :
    u.Inv tp := by
  obtain ⟨p, hp, rfl⟩ := sync_eq h
  replace hp : s.pool.step tp a = some p := by cases ch <;> exact hp
  refine hI.of_pool hp rfl ?_ (fun ch' l' hl' => ?_) fun l' hl' => Or.inl ?_
  · exact (lines_put s ch l).trans (hI.length.trans (Pool.conns_length hp hnew).symm)
  · replace hl' : (s.put ch l).get ch' = some l' := by cases ch' <;> exact hl'
    rw [get_put hl] at hl'
    split at hl'
    · subst ch'
      obtain rfl := Option.some.inj hl'
      exact Or.inr ⟨hk, hm p hp (Pool.inv_trans hI.pool (Pool.trans_of_step hp))⟩
    · rename_i hne
      exact Or.inl ⟨hl', fun n hn => hne (hg ch' n hn)⟩
  · cases ch <;> exact hl'

/-- A call that is not the last one of its exchange. -/
theorem inv_put (hI : s.Inv tp) (hl : ∃ l, s.get ch = some l) (hk : l.Kept tp)
    (hm : ∀ n, s.pool.Needs ch n → l.Meets tp n) : (s.put ch l).Inv tp where
  pool := by cases ch <;> exact hI.pool
  length := (lines_put s ch l).trans (by cases ch <;> exact hI.length)
  meets := by
    intro ch' n l' hn hl'
    replace hn : s.pool.Needs ch' n := by cases ch <;> exact hn
    rw [get_put hl] at hl'
    split at hl'
    · subst ch'
      obtain rfl := Option.some.inj hl'
      exact hm n hn
    · exact hI.meets ch' n l' hn hl'
  kept := by
    intro ch' l' hl'
    rw [get_put hl] at hl'
    split at hl'
    · obtain rfl := Option.some.inj hl'
      exact hk
    · exact hI.kept ch' l' hl'
  lost := by cases ch <;> exact hI.lost

/-- What a thread in an exchange does. -/
theorem exchange_cases {io : CallIo} {done : Bool → Line → Option Wire}
    (h : s.exchange ch io done = some u) : ∃ l l', s.get ch = some l ∧
      (l.call io = (true, l') ∧ u = s.put ch l' ∨
        l.call io = (true, l') ∧ l'.todo = [] ∧ done true l' = some u ∨
        l.call io = (false, l') ∧ done false l' = some u) := by
  obtain ⟨l, hl, h⟩ := Option.bind_eq_some_iff.1 h
  rcases hcall : l.call io with ⟨_ | _, l'⟩
  · rw [hcall] at h
    exact ⟨l, l', hl, Or.inr (Or.inr ⟨hcall, h⟩)⟩
  · rw [hcall] at h
    dsimp only at h
    split at h
    · exact ⟨l, l', hl, Or.inr (Or.inl ⟨hcall, ‹_›, h⟩)⟩
    · obtain rfl := Option.some.inj h
      exact ⟨l, l', hl, Or.inl ⟨hcall, rfl⟩⟩

/-- **An exchange, call by call.**  The thread that is in it relies on nothing
    else of the connection, and what it does when it is over is given. -/
theorem inv_exchange {io : CallIo} {done : Bool → Line → Option Wire} {st : Stage} (hI : s.Inv tp)
    (hneed : s.pool.Needs ch (.talk st)) (hneeds : ∀ n, s.pool.Needs ch n → n = .talk st)
    (h : s.exchange ch io done = some u)
    (hok : ∀ l, (∃ l, s.get ch = some l) → l.Meets tp (.rest st) → done true l = some u → u.Inv tp)
    (hfail : ∀ l, (∃ l, s.get ch = some l) → l.Kept tp → done false l = some u → u.Inv tp) :
    u.Inv tp := by
  obtain ⟨l, l', hl, h⟩ := exchange_cases h
  have hsound : l.Sound tp st := hI.meets ch _ l hneed hl
  obtain ⟨hkept, hnext⟩ := hsound.call io
  rcases h with ⟨hcall, rfl⟩ | ⟨hcall, htodo, h⟩ | ⟨hcall, h⟩
  · rw [hcall] at hkept hnext
    refine inv_put hI ⟨l, hl⟩ hkept fun n hn => ?_
    rw [hneeds n hn]
    exact hnext rfl
  · rw [hcall] at hnext
    exact hok l' ⟨l, hl⟩ ⟨hnext rfl, htodo⟩ h
  · rw [hcall] at hkept
    exact hfail l' ⟨l, hl⟩ hkept h

/-- What a client relies on of the connection it holds. -/
theorem need_of_held {i c : ℕ} {pc : ClientPc} {q : Pool} {m : Need} (hq : q.Inv)
    (hi : q.clients[i]? = some pc) (hc : pc.conn? = some c) (hpc : pc.need? = some (.conn c, m))
    (hn : q.Needs (.conn c) n) : n = m := by
  cases hpc.symm.trans (Pool.needs_held hq hi hc hn)
  rfl

/-- The end of the exchange in which `newConn` sets a connection up. -/
theorem inv_setup {i : ℕ} (ok : Bool) (hI : s.Inv tp) (hi : s.pool.clients[i]? = some .setup)
    (hl : if ok then l.Meets tp (.rest .clear) else l.Kept tp)
    (h : (if ok then s.added l else s.failed l).sync tp (.client i ok) = some u) : u.Inv tp := by
  obtain ⟨p, hp, rfl⟩ := sync_eq h
  replace hp : s.pool.step tp (.client i ok) = some p := by cases ok <;> exact hp
  have hpI := Pool.inv_trans hI.pool (Pool.trans_of_step hp)
  have hp' : some (if ok then s.pool.connAdded i else s.pool.connFailed i) = some p := by
    rw [← hp, Pool.step, hi]
    rfl
  have hpool := Option.some.inj hp'
  have hfresh : ∀ n, ¬ p.Needs .fresh n := by
    intro n
    refine Pool.not_needs_fresh hpI ?_
    rw [← hpool]
    cases ok <;> rfl
  cases ok with
  | false =>
    refine hI.of_pool hp rfl ?_ (fun ch l' hl' => ?_) fun l' hl' => ?_
    · rw [← hpool]
      exact hI.length
    · cases ch with
      | fresh =>
        obtain rfl := Option.some.inj hl'
        exact Or.inr ⟨Line.kept_opened tp, fun n hn => absurd hn (hfresh n)⟩
      | conn c =>
        refine Or.inl ⟨hl', fun n hG => ?_⟩
        cases hG with
        | got hi' => cases hi.symm.trans hi'
    · rcases List.mem_append.1 hl' with hl' | hl'
      · exact Or.inl hl'
      · exact Or.inr (List.mem_singleton.1 hl' ▸ hl)
  | true =>
    refine hI.of_pool hp rfl ?_ (fun ch l' hl' => ?_) fun l' hl' => Or.inl hl'
    · rw [← hpool]
      show (s.lines ++ [l]).length = (s.pool.conns ++ [Conn.added]).length
      rw [List.length_append, List.length_append, hI.length]
      rfl
    · cases ch with
      | fresh =>
        obtain rfl := Option.some.inj hl'
        exact Or.inr ⟨Line.kept_opened tp, fun n hn => absurd hn (hfresh n)⟩
      | conn c =>
        replace hl' : (s.lines ++ [l])[c]? = some l' := hl'
        by_cases hc : c = s.pool.conns.length
        · subst hc
          rw [← hI.length, List.getElem?_concat_length] at hl'
          obtain rfl := Option.some.inj hl'
          refine Or.inr ⟨hl.1.kept, fun n hn => ?_⟩
          have hgot : p.clients[i]? = some (.got s.pool.conns.length true) := by
            rw [← hpool]
            exact (Pool.get_set hi).trans (if_pos rfl)
          rw [need_of_held hpI hgot rfl rfl hn]
          exact hl
        · refine Or.inl ⟨?_, fun n hG => ?_⟩
          · rw [← hI.length] at hc
            rw [List.getElem?_append] at hl'
            split at hl'
            · exact hl'
            · rw [List.getElem?_eq_none (by simp; omega)] at hl'
              cases hl'
          · cases Pool.grants_client hi hG
            exact hc rfl

theorem inv_clientStep {x : Act} {i : ℕ} {ok : Bool} {pc : ClientPc} (hI : s.Inv tp)
    (hi : s.pool.clients[i]? = some pc) (h : s.clientStep tp x i ok pc = some u) : u.Inv tp := by
  have plain : pc.grants? s.pool.conns.length = none → s.sync tp (.client i ok) = some u →
      u.Inv tp := by
    intro hpc h
    refine inv_sync hI h fun ch n hG => ?_
    cases hpc.symm.trans (Pool.grants_client hi hG)
  have hg : ∀ {ch : Chan} (ok : Bool), pc.grants? s.pool.conns.length = some ch →
      ∀ ch' n, Grants s.pool (.client i ok) ch' n → ch' = ch := by
    intro ch ok hpc ch' n hG
    exact Option.some.inj ((Pool.grants_client hi hG).symm.trans hpc)
  have hnew : ∀ ok : Bool, pc ≠ .setup → ∀ j : ℕ, s.pool.clients[j]? = some .setup →
      Action.client i ok ≠ .client j true := by
    intro ok hpc j hj he
    cases he
    exact hpc (Option.some.inj (hi.symm.trans hj))
  have hstep : ∀ (ok : Bool) (p : Pool), s.pool.step tp (.client i ok) = some p →
      s.pool.clientStep tp i ok pc = some p := by
    intro ok p hp
    rw [Pool.step, hi] at hp
    exact hp
  -- the client goes on to `pc'` with the connection it holds
  have goes : ∀ {ok : Bool} {c : ℕ} {l : Line} (pc' : ClientPc),
      (∀ p, s.pool.clientStep tp i ok pc = some p → p.clients = s.pool.clients.set i pc') →
      pc'.conn? = some c → pc ≠ .setup → pc.grants? s.pool.conns.length = some (.conn c) →
      (∃ l, s.get (.conn c) = some l) → l.Kept tp →
      (∀ n, pc'.need? = some (.conn c, n) → l.Meets tp n) →
      (s.put (.conn c) l).sync tp (.client i ok) = some u → u.Inv tp := by
    intro ok c l pc' hpc' hc hset hgr hl hk hm h
    refine inv_put_sync hI hl h (hg ok hgr) (hnew ok hset) hk fun p hp hpI n hn => ?_
    have hi' : p.clients[i]? = some pc' := by
      rw [hpc' p (hstep ok p hp), Pool.get_set hi, if_pos rfl]
    exact hm n (Pool.needs_held hpI hi' hc hn)
  cases pc with
  | connect =>
    cases ok with
    | false =>
      refine inv_sync hI h fun ch n hG => ?_
      cases hG with
      | got hi' => cases hi.symm.trans hi'
    | true =>
      have hsound := Line.sound_opened tp
      rw [clientStep, if_pos rfl] at h
      refine inv_put_sync hI ⟨_, rfl⟩ h (hg true rfl) (hnew true (fun he => by cases he)) hsound.kept
        fun p _ _ n hn => ?_
      rw [Pool.needs_fresh hn]
      exact hsound
  | setup =>
    dsimp only [clientStep] at h
    refine inv_exchange hI (Pool.needs_client hi rfl) (fun n hn => Pool.needs_fresh hn) h
      (fun l _ hl h => ?_) fun l _ hl h => ?_
    · exact inv_setup true hI hi hl h
    · exact inv_setup false hI hi hl h
  | got c isNew =>
    have hset : ClientPc.got c isNew ≠ .setup := fun he => by cases he
    obtain ⟨l, hl, h⟩ := Option.bind_eq_some_iff.1 h
    obtain ⟨hs, htodo⟩ := hI.meets _ _ l (Pool.needs_client hi rfl) hl
    cases isNew with
    | false =>
      have hb : (l.begin rsetOps).Sound tp .clear := hs.begin htodo .rset
      refine goes (.rset c) (fun p hp => by cases hp; rfl) rfl hset rfl ⟨l, hl⟩ hb.kept
        (fun n hn => ?_) h
      cases hn
      exact hb
    | true =>
      have hb : (l.begin (mailOps tp x.toList x.data)).Sound tp .used := hs.begin htodo (.mail _ _)
      refine goes (.mail c) (fun p hp => by cases hp; rfl) rfl hset rfl ⟨l, hl⟩ hb.kept
        (fun n hn => ?_) h
      cases hn
      exact hb
  | rset c =>
    have hset : ClientPc.rset c ≠ .setup := fun he => by cases he
    dsimp only [clientStep] at h
    refine inv_exchange hI (Pool.needs_client hi rfl)
      (fun n hn => need_of_held hI.pool hi rfl rfl hn) h (fun l hl hm h => ?_) fun l hl hk h => ?_
    · have hb : (l.begin (mailOps tp x.toList x.data)).Sound tp .used := hm.1.begin hm.2 (.mail _ _)
      refine goes (.mail c) (fun p hp => by cases hp; rfl) rfl hset rfl hl hb.kept
        (fun n hn => ?_) h
      cases hn
      exact hb
    · refine goes (.retire c false) (fun p hp => by cases hp; rfl) rfl hset rfl hl hk
        (fun n hn => ?_) h
      cases hn
  | mail c =>
    have hset : ClientPc.mail c ≠ .setup := fun he => by cases he
    dsimp only [clientStep] at h
    refine inv_exchange hI (Pool.needs_client hi rfl)
      (fun n hn => need_of_held hI.pool hi rfl rfl hn) h (fun l hl hm h => ?_) fun l hl hk h => ?_
    · refine goes (.sent c) (fun p hp => by cases hp; rfl) rfl hset rfl hl hm.1.kept
        (fun n hn => ?_) h
      cases hn
      exact hm
    · refine goes (.retire c false) (fun p hp => by cases hp; rfl) rfl hset rfl hl hk
        (fun n hn => ?_) h
      cases hn
  | _ => exact plain rfl h

theorem inv_noopStep {x : Act} {c : ℕ} {ok : Bool} {k : Conn} (hI : s.Inv tp)
    (hk : s.pool.conns[c]? = some k) (h : s.noopStep tp x c ok k.pc = some u) : u.Inv tp := by
  have plain : k.pc ≠ .count → k.pc ≠ .noop → s.sync tp (.noop c ok) = some u → u.Inv tp := by
    intro hcount hnoop h
    refine inv_sync hI h fun ch n hG => ?_
    obtain ⟨-, hpc | hpc⟩ := Pool.grants_noop hk hG
    · exact hcount hpc
    · exact hnoop hpc
  -- the thread goes on to a place where the connection is still its own
  have goes : ∀ {ok : Bool} {l : Line} (k' : Conn),
      (∀ p, s.pool.noopStep tp c ok k = some p → p.conns[c]? = some k') → k'.pc.owns →
      (∃ l, s.get (.conn c) = some l) → l.Kept tp → (∀ n, k'.need? = some n → l.Meets tp n) →
      (s.put (.conn c) l).sync tp (.noop c ok) = some u → u.Inv tp := by
    intro ok l k' hk' howns hl hkept hm h
    refine inv_put_sync hI hl h (fun ch n hG => (Pool.grants_noop hk hG).1) nofun hkept
      fun p hp hpI n hn => ?_
    rw [Pool.step, hk] at hp
    exact hm n (Pool.needs_owned hpI (hk' p hp) howns hn)
  cases hpc : k.pc with
  | count =>
    rw [hpc] at h
    obtain ⟨l, hl, h⟩ := Option.bind_eq_some_iff.1 h
    have hneed : k.need? = some (.rest .used) := by simp [Conn.need?, hpc]
    obtain ⟨hs, htodo⟩ := hI.meets _ _ l (Pool.needs_conn hk hneed) hl
    have hb : (l.begin noopOps).Sound tp .used := hs.begin htodo .noop
    refine goes { k with noopCount := k.noopCount + 1, pc := .noop } (fun p hp => ?_) rfl
      ⟨l, hl⟩ hb.kept (fun n hn => ?_) h
    · simp only [Pool.noopStep, hpc] at hp
      obtain rfl := Option.some.inj hp
      exact Pool.get_modify_self (f := fun k => { k with noopCount := k.noopCount + 1, pc := .noop })
        hk rfl
    · cases hn
      exact hb
  | noop =>
    rw [hpc] at h
    have hneed : k.need? = some (.talk .used) := by simp [Conn.need?, hpc]
    have hstatus : k.status = .noop := (hI.pool.conn c k hk).owns (by rw [hpc]; rfl)
    have hback : ∀ {ok : Bool} (p : Pool), s.pool.noopStep tp c ok k = some p → p.conns[c]? =
        some { k with pc := if !ok || k.noopCount = tp.maxNoop then .close else .relock } := by
      intro ok p hp
      simp only [Pool.noopStep, hpc] at hp
      obtain rfl := Option.some.inj hp
      exact Pool.get_modify_self
        (f := fun k' => { k' with pc := if !ok || k.noopCount = tp.maxNoop then .close else .relock })
        hk rfl
    dsimp only [noopStep] at h
    refine inv_exchange hI (Pool.needs_conn hk hneed)
      (fun n hn => Option.some.inj ((Pool.needs_owned hI.pool hk (by rw [hpc]; rfl) hn).symm.trans hneed))
      h (fun l hl hm h => ?_) fun l hl hkept h => ?_
    · refine goes _ hback (by dsimp only; split <;> rfl) hl hm.1.kept (fun n hn => ?_) h
      split at hn
      · simp [Conn.need?, hstatus] at hn
      · cases hn
        exact hm
    · refine goes _ hback rfl hl hkept (fun n hn => ?_) h
      simp [Conn.need?, hstatus] at hn
  | _ =>
    rw [hpc] at h
    exact plain (by simp [hpc]) (by simp [hpc]) h

/-- **One step of the system.** -/
theorem inv_step {x : Act} (hI : s.Inv tp) (h : step tp s x = some u) : u.Inv tp := by
  unfold step at h
  cases hx : x.act with
  | client i ok =>
    rw [hx] at h
    obtain ⟨pc, hi, h⟩ := Option.bind_eq_some_iff.1 h
    exact inv_clientStep hI hi h
  | noop c ok =>
    rw [hx] at h
    obtain ⟨k, hk, h⟩ := Option.bind_eq_some_iff.1 h
    exact inv_noopStep hI hk h
  | timeout i | abort | spuriousClient i | spuriousNoop c | spuriousAbort | resetToday =>
    rw [hx] at h
    exact inv_sync hI h nofun

theorem inv_of_reach {n : ℕ} (h : Runs.Reach (step tp) (init n) s) : s.Inv tp :=
  h.inv (inv_init tp n) fun _ _ _ hI hs => inv_step hI hs

/-! ## What has been written stays written -/

/-- The connections are written on, those given up are not, and the pool runs on
    as it does by itself. -/
structure Grows (tp : Tp) (s t : Wire) : Prop where
  lines : ∀ (c : ℕ) (l : Line), s.lines[c]? = some l → ∃ l', t.lines[c]? = some l' ∧ l.trace <+: l'.trace
  lost : s.lost <+: t.lost
  pool : Runs.Reach (Pool.step tp) s.pool t.pool

theorem Grows.same (hl : t.lines = s.lines) (hd : t.lost = s.lost) (hp : t.pool = s.pool) :
    s.Grows tp t where
  lines := fun _ l hget => ⟨l, hl ▸ hget, List.prefix_rfl⟩
  lost := hd ▸ List.prefix_rfl
  pool := hp ▸ Runs.Reach.refl

theorem Grows.trans (h : s.Grows tp t) (h' : t.Grows tp u) : s.Grows tp u where
  lines := by
    intro c l hl
    obtain ⟨l', hl', hpre⟩ := h.lines c l hl
    obtain ⟨l'', hl'', hpre'⟩ := h'.lines c l' hl'
    exact ⟨l'', hl'', hpre.trans hpre'⟩
  lost := h.lost.trans h'.lost
  pool := h'.pool.inv h.pool fun _ _ _ hr hs => hr.snoc hs

theorem grows_sync (h : s.sync tp a = some u) : s.Grows tp u := by
  obtain ⟨p, hp, rfl⟩ := sync_eq h
  have hsame : s.Grows tp s := .same rfl rfl rfl
  exact ⟨hsame.lines, hsame.lost, Runs.Reach.refl.snoc hp⟩

theorem grows_put {l' : Line} (hl : s.get ch = some l) (hpre : l.trace <+: l'.trace) :
    s.Grows tp (s.put ch l') where
  lines := by
    intro c l₀ hl₀
    have hget := get_put (l := l') ⟨l, hl⟩ (.conn c)
    split at hget
    · subst ch
      obtain rfl := Option.some.inj (hl₀.symm.trans hl)
      exact ⟨l', hget, hpre⟩
    · exact ⟨l₀, hget.trans hl₀, List.prefix_rfl⟩
  lost := by cases ch <;> exact List.prefix_rfl
  pool := by cases ch <;> exact Runs.Reach.refl

theorem grows_exchange {io : CallIo} {done : Bool → Line → Option Wire}
    (h : s.exchange ch io done = some u)
    (hdone : ∀ ok l l', s.get ch = some l → l.trace <+: l'.trace → done ok l' = some u → s.Grows tp u) :
    s.Grows tp u := by
  obtain ⟨l, l', hl, h⟩ := exchange_cases h
  have hpre := Line.trace_call l io
  rcases h with ⟨hcall, rfl⟩ | ⟨hcall, -, h⟩ | ⟨hcall, h⟩
  · rw [hcall] at hpre
    exact grows_put hl hpre
  · rw [hcall] at hpre
    exact hdone true l l' hl hpre h
  · rw [hcall] at hpre
    exact hdone false l l' hl hpre h

theorem grows_step {x : Act} (h : step tp s x = some u) : s.Grows tp u := by
  have put : ∀ {ch : Chan} {a : Action} {l : Line} (l' : Line), s.get ch = some l → l.trace <+: l'.trace →
      (s.put ch l').sync tp a = some u → s.Grows tp u := by
    intro ch a l l' hl hpre h
    exact (grows_put hl hpre).trans (grows_sync h)
  unfold step at h
  cases hx : x.act with
  | client i ok =>
    rw [hx] at h
    obtain ⟨pc, hi, h⟩ := Option.bind_eq_some_iff.1 h
    cases pc with
    | connect =>
      dsimp only [clientStep] at h
      split at h
      · have hfresh : s.Grows tp (s.put .fresh (.opened (ehloOps tp ++ authOps tp))) :=
          .same rfl rfl rfl
        exact hfresh.trans (grows_sync h)
      · exact grows_sync h
    | setup =>
      dsimp only [clientStep] at h
      refine grows_exchange h fun ok l l' _ _ h => ?_
      cases ok with
      | false =>
        have hlost : s.Grows tp (s.failed l') :=
          ⟨fun c l hl => ⟨l, hl, List.prefix_rfl⟩, List.prefix_append _ _, Runs.Reach.refl⟩
        exact hlost.trans (grows_sync h)
      | true =>
        have hadd : s.Grows tp (s.added l') := by
          refine ⟨fun c l hl => ⟨l, ?_, List.prefix_rfl⟩, List.prefix_rfl, Runs.Reach.refl⟩
          obtain ⟨hlt, -⟩ := List.getElem?_eq_some_iff.1 hl
          exact (List.getElem?_append_left hlt).trans hl
        exact hadd.trans (grows_sync h)
    | got c isNew =>
      obtain ⟨l, hl, h⟩ := Option.bind_eq_some_iff.1 h
      refine put (l.begin (if isNew then mailOps tp x.toList x.data else rsetOps)) hl ?_ h
      exact List.prefix_rfl
    | rset c =>
      dsimp only [clientStep] at h
      refine grows_exchange h fun ok l l' hl hpre h => ?_
      cases ok with
      | false => exact put _ hl hpre h
      | true => exact put (l'.begin (mailOps tp x.toList x.data)) hl hpre h
    | mail c =>
      dsimp only [clientStep] at h
      exact grows_exchange h fun ok l l' hl hpre h => put _ hl hpre h
    | _ => exact grows_sync h
  | noop c ok =>
    rw [hx] at h
    obtain ⟨k, hk, h⟩ := Option.bind_eq_some_iff.1 h
    cases hpc : k.pc with
    | count =>
      rw [hpc] at h
      obtain ⟨l, hl, h⟩ := Option.bind_eq_some_iff.1 h
      exact put (l.begin noopOps) hl List.prefix_rfl h
    | noop =>
      rw [hpc] at h
      dsimp only [noopStep] at h
      exact grows_exchange h fun ok l l' hl hpre h => put _ hl hpre h
    | _ =>
      rw [hpc] at h
      exact grows_sync h
  | timeout i | abort | spuriousClient i | spuriousNoop c | spuriousAbort | resetToday =>
    rw [hx] at h
    exact grows_sync h

theorem grows_of_reach (h : Runs.Reach (step tp) s t) : s.Grows tp t :=
  h.inv (.same rfl rfl rfl) fun _ _ _ hG hs => hG.trans (grows_step hs)

/-- **The calls are invisible to the pool.** -/
theorem pool_of_reach {n : ℕ} (h : Runs.Reach (step tp) (init n) s) :
    Runs.Reach (Pool.step tp) (Pool.init n) s.pool := (grows_of_reach h).pool

/-- A connection that has been refused something is not written on any more. -/
theorem frozen {l' : Line} (hk : l'.Kept tp) (hpre : l.trace <+: l'.trace)
    (he : ∃ e ∈ l.trace, e.accepted = false) : l'.trace = l.trace := by
  obtain ⟨e, he, hfalse⟩ := he
  obtain ⟨rest, hrest⟩ := hpre
  cases rest with
  | nil => rw [← hrest, List.append_nil]
  | cons x xs =>
    have hmem : e ∈ l'.trace.dropLast := by
      rw [← hrest, List.dropLast_append_of_ne_nil (List.cons_ne_nil x xs)]
      exact List.mem_append_left _ he
    cases hfalse.symm.trans (hk.accepted e hmem)

/-- Every connection there has been. -/
def all (s : Wire) : List Line := s.fresh :: s.lines ++ s.lost

/-- **Session discipline.**  In every run, whatever the servers answer and
    however the threads take turns, each connection is disciplined; and one on
    which a step was not accepted stays as it is. -/
theorem session_discipline {n : ℕ} (h : Runs.Reach (step tp) (init n) s) :
    (∀ l ∈ s.all, l.Disciplined tp) ∧
    ∀ t, Runs.Reach (step tp) s t →
      (∀ (c : ℕ) (l : Line), s.lines[c]? = some l → ∃ l', t.lines[c]? = some l' ∧
        l.trace <+: l'.trace ∧ ((∃ e ∈ l.trace, e.accepted = false) → l'.trace = l.trace)) ∧
      s.lost <+: t.lost := by
  have hI := inv_of_reach h
  refine ⟨fun l hl => ?_, fun t ht => ?_⟩
  · rw [all, List.mem_append, List.mem_cons] at hl
    rcases hl with (rfl | hl) | hl
    · exact (hI.kept .fresh _ rfl).disciplined
    · obtain ⟨c, hc⟩ := List.mem_iff_getElem?.1 hl
      exact (hI.kept (.conn c) l hc).disciplined
    · exact (hI.lost l hl).disciplined
  · have htI : t.Inv tp := ht.inv hI fun _ _ _ hI hs => inv_step hI hs
    obtain ⟨hlines, hlost, -⟩ := grows_of_reach ht
    refine ⟨fun c l hl => ?_, hlost⟩
    obtain ⟨l', hl', hpre⟩ := hlines c l hl
    exact ⟨l', hl', hpre, frozen (htI.kept (.conn c) l' hl') hpre⟩

end

/-- A step of the client 0 in which all is sent and this reply is read. -/
def accepting (code : Bytes) (h : code.length ≤ 1023) : Act :=
  ⟨.client 0 true, ⟨.all, .data ⟨code, h⟩, true, []⟩, [], []⟩

/-- A connection is set up, and its first mail transaction begins. -/
theorem session_discipline_one : ∃ s : Wire, s.lines.map (fun l => l.trace.length) = [4] ∧
    ∀ l ∈ s.all, l.Disciplined tpPlain := by
  have h : ((Runs.exec (step tpPlain) (init 1)
      (List.replicate 4 (accepting (bytes "220\n") (by decide)) ++
        List.replicate 4 (accepting (bytes "250\n") (by decide)))).map fun s =>
      s.lines.map fun l => l.trace.length) = some [4] := by
    decide +kernel
  obtain ⟨s, hs, hlen⟩ := Option.map_eq_some_iff.1 h
  exact ⟨s, hlen, (session_discipline (Runs.Reach.refl.of_exec hs)).1⟩

end Wire

end SmtpProxy
