/-
  No plaintext fallback: what goes out on a connection outside of its TLS
  session.

  * `Link`, `Line.linked`: the calls made on a connection, each with what the
    connection was when it was made;
  * `Wire.all_of_reach`: what holds of new connections, and is kept by what the
    threads do with them, holds of every connection in every run;
  * `doTestTp`: the connections made to test the configuration;
  * `no_plaintext`: with SSL nothing is written outside of the session, with TLS
    an EHLO and a STARTTLS.
-/
import SmtpProxy.Discipline

namespace SmtpProxy

open CString

/-! ## Calls and the session they are made in -/

/-- What a connection is when a call is made on it. -/
structure Link where
  ssl : Bool  -- `conn->ssl` is set
  up : Bool  -- the `SSL_connect` on it has returned 1
  deriving DecidableEq

namespace Link

def plain : Link := ⟨false, false⟩

/-- A call on it is made in a TLS session. -/
def secure (k : Link) : Bool := k.ssl && k.up

def next (k : Link) (e : Entry) : Link where
  ssl := (e.op.cmd (e.io.session k.ssl)).2.ssl
  up := if e.op = .hand then e.io.hand else k.up

end Link

def linked : Link → List Entry → List (Link × Entry)
  | _, [] => []
  | k, e :: es => (k, e) :: linked (k.next e) es

def Op.writes : Op → Bool
  | .write _ => true
  | _ => false

/-- What is written outside of a session. -/
def bare (k : Link) (es : List Entry) : List Op :=
  ((linked k es).filter fun p => !p.1.secure && p.2.op.writes).map fun p => p.2.op

namespace Line

def linked (l : Line) : List (Link × Entry) := SmtpProxy.linked .plain l.trace

def bare (l : Line) : List Op := SmtpProxy.bare .plain l.trace

/-- What the connection is now. -/
def link (l : Line) : Link := l.trace.foldl Link.next .plain

end Line

section
variable {k : Link} {e : Entry} {es : List Entry} {pre post os : List Op}

theorem next_hand (h : e.op = .hand) : k.next e = ⟨true, e.io.hand⟩ := by
  obtain ⟨o, ⟨send, recv, hand, err⟩, tls⟩ := e
  obtain rfl : o = .hand := h
  cases hand <;> rfl

/-- Only a handshake changes what a connection is. -/
theorem next_other (h : e.op ≠ .hand) : k.next e = k := by
  obtain ⟨o, io, tls⟩ := e
  have hup : (k.next ⟨o, io, tls⟩).up = k.up := if_neg h
  have hssl : (k.next ⟨o, io, tls⟩).ssl = k.ssl := by
    cases o with
    | hand => exact absurd rfl h
    | write data => exact smtpWrite_ssl data (io.session k.ssl)
    | expect code => exact smtpExpect_ssl code (io.session k.ssl)
    | either code code' =>
      show ((smtpExpect code).orCode code' (io.session k.ssl)).2.ssl = _
      rw [Cmd.orCode_snd]
      exact smtpExpect_ssl code (io.session k.ssl)
    | fail text => rfl
  cases k
  exact congrArg₂ Link.mk hssl hup

theorem secure_linked (hk : k.secure) (h : ∀ e ∈ es, e.op ≠ .hand) :
    ∀ p ∈ linked k es, p.1.secure := by
  induction es with
  | nil => simp [linked]
  | cons e es ih =>
    obtain ⟨he, hes⟩ := List.forall_mem_cons.1 h
    rw [linked, next_other he]
    exact List.forall_mem_cons.2 ⟨hk, ih hes⟩

theorem bare_secure (hk : k.secure) (h : ∀ e ∈ es, e.op ≠ .hand) : bare k es = [] := by
  rw [bare, List.map_eq_nil_iff, List.filter_eq_nil_iff]
  intro p hp
  simp [secure_linked hk h p hp]

theorem bare_cons (hk : k.secure = false) :
    bare k (e :: es) = (if e.op.writes then [e.op] else []) ++ bare (k.next e) es := by
  unfold bare
  rw [linked, List.filter_cons]
  cases e.op.writes <;> simp [hk]

/-- **Behind a handshake that all depends on.**  The calls are those of a list
    with one handshake, and each was made because the one before was accepted. -/
theorem bare_prefix (hk : k.secure = false) (hpre : .hand ∉ pre) (hpost : .hand ∉ post)
    (hform : es.map Entry.op <+: pre ++ .hand :: post) (hacc : ∀ e ∈ es.dropLast, e.accepted) :
    bare k es <+: pre.filter Op.writes ∧ ∀ p ∈ (linked k es).drop (pre.length + 1), p.1.secure := by
  induction pre generalizing es with
  | nil =>
    cases es with
    | nil => exact ⟨List.nil_prefix, by simp [linked]⟩
    | cons e es =>
      obtain ⟨he, hform⟩ := List.cons_prefix_cons.1 hform
      have hes : ∀ x ∈ es, x.op ≠ .hand := by
        rintro x hx hop
        exact hpost (hop ▸ hform.subset (List.mem_map_of_mem hx))
      rw [bare_cons hk, linked, he, next_hand he]
      cases es with
      | nil => exact ⟨List.prefix_rfl, by simp [linked]⟩
      | cons x es =>
        have hup : e.io.hand = true := by
          have := hacc e (by simp)
          rwa [Entry.accepted, he] at this
        have hsecure : Link.secure ⟨true, e.io.hand⟩ := hup
        refine ⟨?_, secure_linked hsecure hes⟩
        rw [bare_secure hsecure hes]
        exact List.prefix_rfl
  | cons o pre ih =>
    cases es with
    | nil => exact ⟨List.nil_prefix, by simp [linked]⟩
    | cons e es =>
      obtain ⟨he, hform⟩ := List.cons_prefix_cons.1 hform
      obtain ⟨ho, hpre⟩ := List.ne_and_not_mem_of_not_mem_cons hpre
      have hacc' : ∀ x ∈ es.dropLast, x.accepted := by
        intro x hx
        refine hacc x ?_
        cases es with
        | nil => cases hx
        | cons y es => exact List.mem_cons_of_mem _ hx
      obtain ⟨hbare, hsec⟩ := ih hpre hform hacc'
      rw [bare_cons hk, linked, next_other (he ▸ ho.symm), he, List.filter_cons]
      refine ⟨?_, hsec⟩
      split
      · exact List.cons_prefix_cons.2 ⟨rfl, hbare⟩
      · exact hbare

end

/-! ## Invariants of the connections -/

namespace Wire

section
variable {tp : Tp} {s u : Wire} {P : Line → Prop}

theorem all_sync {a : Action} (h : s.sync tp a = some u) : u.all = s.all := by
  obtain ⟨p, -, rfl⟩ := sync_eq h
  rfl

theorem mem_all {ch : Chan} {l : Line} (h : s.get ch = some l) : l ∈ s.all := by
  cases ch with
  | fresh =>
    obtain rfl := Option.some.inj h
    exact List.mem_cons_self
  | conn c => exact List.mem_cons_of_mem _ (List.mem_append_left _ (List.mem_of_getElem? h))

theorem all_put {ch : Chan} {l : Line} (hs : ∀ l ∈ s.all, P l) (hl : P l) : ∀ l' ∈ (s.put ch l).all, P l' := by
  intro l' hl'
  cases ch with
  | fresh =>
    rcases List.mem_cons.1 hl' with rfl | hl'
    · exact hl
    · exact hs l' (List.mem_cons_of_mem _ hl')
  | conn c =>
    rcases List.mem_append.1 hl' with hl' | hl'
    · rcases List.mem_cons.1 hl' with rfl | hl'
      · exact hs _ List.mem_cons_self
      · rcases List.mem_or_eq_of_mem_set hl' with hl' | rfl
        · exact hs l' (List.mem_cons_of_mem _ (List.mem_append_left _ hl'))
        · exact hl
    · exact hs l' (List.mem_append_right _ hl')

/-- **Invariant rule for the connections.** -/
theorem all_of_reach {n : ℕ} (hopened : ∀ ops, P (.opened ops)) (hbegin : ∀ l ops, P l → P (l.begin ops))
    (hcall : ∀ l io, P l → P (l.call io).2) (h : Runs.Reach (step tp) (init n) s) : ∀ l ∈ s.all, P l := by
  refine h.inv (I := fun s => ∀ l ∈ s.all, P l) (by simp [init, all, hopened]) fun s x u hs hx => ?_
  have sync : ∀ {v : Wire} {a : Action}, v.sync tp a = some u → (∀ l ∈ v.all, P l) → ∀ l ∈ u.all, P l := by
    intro v a hv hall
    rw [all_sync hv]
    exact hall
  have exchange : ∀ {ch : Chan} {io : CallIo} {done : Bool → Line → Option Wire},
      s.exchange ch io done = some u → (∀ ok l, P l → done ok l = some u → ∀ l ∈ u.all, P l) →
      ∀ l ∈ u.all, P l := by
    intro ch io done hex hdone
    obtain ⟨l, l', hl, hex⟩ := exchange_cases hex
    have hP := hcall l io (hs l (mem_all hl))
    rcases hex with ⟨hio, rfl⟩ | ⟨hio, -, hex⟩ | ⟨hio, hex⟩
    · rw [hio] at hP
      exact all_put hs hP
    · rw [hio] at hP
      exact hdone true l' hP hex
    · rw [hio] at hP
      exact hdone false l' hP hex
  unfold step at hx
  cases ha : x.act with
  | client i ok =>
    rw [ha] at hx
    obtain ⟨pc, -, hx⟩ := Option.bind_eq_some_iff.1 hx
    cases pc with
    | connect =>
      refine sync hx ?_
      cases ok with
      | false => exact hs
      | true =>
        show ∀ l ∈ (s.put .fresh (.opened (ehloOps tp ++ authOps tp))).all, P l
        exact all_put hs (hopened _)
    | setup =>
      dsimp only [clientStep] at hx
      refine exchange hx fun ok l hl hx => sync hx fun l' hl' => ?_
      cases ok with
      | false =>
        rcases List.mem_append.1 hl' with hl' | hl'
        · rcases List.mem_cons.1 hl' with rfl | hl'
          · exact hopened []
          · exact hs l' (List.mem_cons_of_mem _ (List.mem_append_left _ hl'))
        · rcases List.mem_append.1 hl' with hl' | hl'
          · exact hs l' (List.mem_append_right _ hl')
          · exact List.mem_singleton.1 hl' ▸ hl
      | true =>
        rcases List.mem_append.1 hl' with hl' | hl'
        · rcases List.mem_cons.1 hl' with rfl | hl'
          · exact hopened []
          · rcases List.mem_append.1 hl' with hl' | hl'
            · exact hs l' (List.mem_cons_of_mem _ (List.mem_append_left _ hl'))
            · exact List.mem_singleton.1 hl' ▸ hl
        · exact hs l' (List.mem_append_right _ hl')
    | got c isNew =>
      obtain ⟨l, hl, hx⟩ := Option.bind_eq_some_iff.1 hx
      exact sync hx (all_put hs (hbegin l _ (hs l (mem_all hl))))
    | rset c =>
      dsimp only [clientStep] at hx
      refine exchange hx fun ok l hl hx => sync hx (all_put hs ?_)
      cases ok with
      | false => exact hl
      | true => exact hbegin l _ hl
    | mail c =>
      dsimp only [clientStep] at hx
      exact exchange hx fun ok l hl hx => sync hx (all_put hs hl)
    | _ => exact sync hx hs
  | noop c ok =>
    rw [ha] at hx
    obtain ⟨k, -, hx⟩ := Option.bind_eq_some_iff.1 hx
    cases hpc : k.pc with
    | count =>
      rw [hpc] at hx
      obtain ⟨l, hl, hx⟩ := Option.bind_eq_some_iff.1 hx
      exact sync hx (all_put hs (hbegin l _ (hs l (mem_all hl))))
    | noop =>
      rw [hpc] at hx
      dsimp only [noopStep] at hx
      exact exchange hx fun ok l hl hx => sync hx (all_put hs hl)
    | _ =>
      rw [hpc] at hx
      exact sync hx hs
  | timeout i | abort | spuriousClient i | spuriousNoop c | spuriousAbort | resetToday =>
    rw [ha] at hx
    exact sync hx hs

end

end Wire

/-! ## The connections of a transport -/

/-- `conn->ssl` of a connection is what its calls have made of it. -/
theorem link_call {l : Line} (io : CallIo) (h : l.link.ssl = l.ssl) :
    (l.call io).2.link.ssl = (l.call io).2.ssl := by
  obtain ⟨ssl, todo, trace⟩ := l
  replace h : (trace.foldl Link.next .plain).ssl = ssl := h
  subst ssl
  cases todo with
  | nil => rfl
  | cons o os =>
    have hnext : ((trace.foldl Link.next .plain).next ⟨o, io, (trace.foldl Link.next .plain).ssl⟩).ssl =
        (o.cmd (io.session (trace.foldl Link.next .plain).ssl)).2.ssl := rfl
    simp only [Line.call, Line.link]
    rcases ho : o.cmd (io.session (trace.foldl Link.next .plain).ssl) with ⟨_ | _, w⟩
    · rw [ho] at hnext
      simpa using hnext
    · rw [ho] at hnext
      simpa using hnext

theorem not_hand_auth (tp : Tp) : .hand ∉ authOps tp := by
  unfold authOps
  split_ifs <;> simp

theorem not_hand_mail (tp : Tp) (toList : List Bytes) (data : Bytes) : .hand ∉ mailOps tp toList data := by
  simp [mailOps, rcptOps, dataOps]

/-- After the set-up there is no handshake. -/
theorem talk_ehlo {tp : Tp} {st : Stage} {os : List Op} (h : Talk tp st os) :
    ∃ rest, os = ehloOps tp ++ rest ∧ .hand ∉ rest := by
  have append : ∀ {os os' : List Op}, (∃ rest, os = ehloOps tp ++ rest ∧ .hand ∉ rest) → .hand ∉ os' →
      ∃ rest, os ++ os' = ehloOps tp ++ rest ∧ .hand ∉ rest := by
    rintro os os' ⟨rest, rfl, hrest⟩ hos'
    exact ⟨rest ++ os', List.append_assoc .., by simp [hrest, hos']⟩
  induction h with
  | setup => exact ⟨authOps tp, rfl, not_hand_auth tp⟩
  | mail toList data h ih => exact append ih (not_hand_mail tp toList data)
  | noop h ih => exact append ih (by decide)
  | rset h ih => exact append ih (by decide)

/-- The commands before STARTTLS is answered. -/
def starttlsOps : List Op := [.write (bytes "EHLO localhost\r\n"), .write (bytes "STARTTLS\r\n")]

/-- Nothing but these commands is written outside of a session, and nothing at
    all once `smtpEHLO` is over. -/
structure Line.Secret (tp : Tp) (l : Line) : Prop where
  ssl : strcmp tp.ssl (bytes "SSL") → l.bare = []
  tls : strcmp tp.ssl (bytes "TLS") → l.bare <+: starttlsOps
  session : strcmp tp.ssl (bytes "SSL") ∨ strcmp tp.ssl (bytes "TLS") →
    ∀ p ∈ l.linked.drop (ehloOps tp).length, p.1.secure

/-- The two modes exclude each other. -/
theorem ssl_or_tls {tp : Tp} (h : strcmp tp.ssl (bytes "SSL")) : strcmp tp.ssl (bytes "TLS") = false := by
  rw [strcmp, decide_eq_true_eq] at h
  rw [strcmp, h]
  decide

theorem secret_of_form {tp : Tp} {l : Line} {rest : List Op} (hrest : .hand ∉ rest)
    (hform : l.ops <+: ehloOps tp ++ rest) (hacc : ∀ e ∈ l.trace.dropLast, e.accepted) : l.Secret tp := by
  have drop : ∀ {m n : ℕ}, m ≤ n → (∀ p ∈ l.linked.drop m, p.1.secure) →
      ∀ p ∈ l.linked.drop n, p.1.secure := by
    intro m n hmn h p hp
    exact h p ((List.drop_sublist_drop_left _ hmn).subset hp)
  have ssl : strcmp tp.ssl (bytes "SSL") → l.bare = [] ∧ ∀ p ∈ l.linked.drop 1, p.1.secure := by
    intro h
    have hops : ehloOps tp ++ rest = [] ++ .hand :: ([.expect (bytes "220"),
        .write (bytes "EHLO localhost\r\n"), .expect (bytes "250")] ++ rest) := by
      simp [ehloOps, h, ssl_or_tls h]
    rw [hops] at hform
    obtain ⟨hbare, hsec⟩ := bare_prefix (k := .plain) rfl (by simp) (by simp [hrest]) hform hacc
    exact ⟨List.prefix_nil.1 hbare, hsec⟩
  have tls : strcmp tp.ssl (bytes "TLS") → l.bare <+: starttlsOps ∧ ∀ p ∈ l.linked.drop 6, p.1.secure := by
    intro h
    have hno : strcmp tp.ssl (bytes "SSL") = false := by
      cases hs : strcmp tp.ssl (bytes "SSL") with
      | false => rfl
      | true => cases h.symm.trans (ssl_or_tls hs)
    have hops : ehloOps tp ++ rest = [.expect (bytes "220"), .write (bytes "EHLO localhost\r\n"),
        .expect (bytes "250"), .write (bytes "STARTTLS\r\n"), .expect (bytes "220")] ++
        .hand :: ([.write (bytes "EHLO localhost\r\n"), .expect (bytes "250")] ++ rest) := by
      simp [ehloOps, h, hno]
    rw [hops] at hform
    exact bare_prefix (k := .plain) rfl (by simp) (by simp [hrest]) hform hacc
  refine ⟨fun h => (ssl h).1, fun h => (tls h).1, ?_⟩
  rintro (h | h)
  · exact drop (by simp [ehloOps]; omega) (ssl h).2
  · exact drop (by simp [ehloOps, h]) (tls h).2

theorem Line.Kept.secret {tp : Tp} {l : Line} (h : l.Kept tp) : l.Secret tp := by
  obtain ⟨st, word, hword, hform⟩ := h.form
  obtain ⟨rest, rfl, hrest⟩ := talk_ehlo hword
  exact secret_of_form hrest hform h.accepted

/-- The exchange of `doTestTp`, on its own connection. -/
def doTestTp (tp : Tp) (ios : List CallIo) : Bool × Line :=
  Line.calls ios (.opened (ehloOps tp ++ authOps tp ++ quitOps))

theorem secret_calls {tp : Tp} {rest : List Op} (hrest : .hand ∉ rest)
    (hproper : ∀ o ∈ ehloOps tp ++ rest, o.Proper) (ios : List CallIo) {l : Line}
    (hform : l.ops ++ l.todo = ehloOps tp ++ rest) (hacc : ∀ e ∈ l.trace, e.accepted) :
    (Line.calls ios l).2.Secret tp := by
  induction ios generalizing l with
  | nil =>
    refine secret_of_form hrest ⟨_, hform⟩ fun e he => hacc e (List.dropLast_subset _ he)
  | cons io ios ih =>
    obtain ⟨ssl, todo, trace⟩ := l
    cases todo with
    | nil => exact ih hform hacc
    | cons o os =>
      have ho := cmd_accepts (hproper o (hform ▸ by simp)) io ssl
      have hops : (trace ++ [(⟨o, io, ssl⟩ : Entry)]).map Entry.op ++ os = ehloOps tp ++ rest := by
        rw [← hform]
        simp [Line.ops]
      simp only [Line.calls, Line.call]
      rcases hw : o.cmd (io.session ssl) with ⟨_ | _, w⟩
      · refine secret_of_form hrest ⟨os, hops⟩ fun e he => hacc e ?_
        rwa [List.dropLast_concat] at he
      · refine ih hops fun e he => ?_
        rcases List.mem_append.1 he with he | he
        · exact hacc e he
        · rw [List.mem_singleton.1 he]
          rw [hw] at ho
          exact ho.symm

/-- **No plaintext fallback.**  In every run, whatever the servers answer and
    however the handshakes go, every connection of a transport with SSL or TLS
    keeps its commands, credentials and mails to a TLS session that has been
    set up; and so do those that only test the configuration. -/
theorem no_plaintext {tp : Tp} {n : ℕ} {s : Wire} (h : Runs.Reach (Wire.step tp) (Wire.init n) s)
    (ios : List CallIo) : (∀ l ∈ s.all, l.link.ssl = l.ssl ∧ l.Secret tp) ∧ (doTestTp tp ios).2.Secret tp := by
  have hI := Wire.inv_of_reach h
  refine ⟨fun l hl => ⟨?_, ?_⟩, ?_⟩
  · exact Wire.all_of_reach (P := fun l => l.link.ssl = l.ssl) (fun _ => rfl) (fun _ _ h => h)
      (fun _ io h => link_call io h) h l hl
  · rw [Wire.all, List.mem_append, List.mem_cons] at hl
    rcases hl with (rfl | hl) | hl
    · exact (hI.kept .fresh _ rfl).secret
    · obtain ⟨c, hc⟩ := List.mem_iff_getElem?.1 hl
      exact (hI.kept (.conn c) l hc).secret
    · exact (hI.lost l hl).secret
  · have hform : (Line.opened (ehloOps tp ++ authOps tp ++ quitOps)).ops ++
        (Line.opened (ehloOps tp ++ authOps tp ++ quitOps)).todo = ehloOps tp ++ (authOps tp ++ quitOps) :=
      List.append_assoc ..
    refine secret_calls ?_ ?_ ios hform (by simp [Line.opened])
    · simp [not_hand_auth, quitOps]
    · rw [← List.append_assoc]
      exact List.forall_mem_append.2 ⟨proper_setup tp, by decide⟩

/-- A transport with STARTTLS. -/
def tpTls : Tp := { tpPlain with ssl := bytes "TLS" }

/-- After the handshake the first mail transaction begins. -/
theorem no_plaintext_tls : ∃ s : Wire, s.lines.map (fun l => (l.trace.length, l.bare)) = [(9, starttlsOps)] ∧
    ∀ l ∈ s.all, l.Secret tpTls := by
  have h : ((Runs.exec (Wire.step tpTls) (Wire.init 1)
      (List.replicate 5 (Wire.accepting (bytes "220\n") (by decide)) ++
        List.replicate 2 (Wire.accepting (bytes "250\n") (by decide)) ++
        List.replicate 3 (Wire.accepting (bytes "220\n") (by decide)) ++
        List.replicate 3 (Wire.accepting (bytes "250\n") (by decide)))).map fun s =>
      s.lines.map fun l => (l.trace.length, l.bare)) = some [(9, starttlsOps)] := by
    decide +kernel
  obtain ⟨s, hs, hbare⟩ := Option.map_eq_some_iff.1 h
  exact ⟨s, hbare, fun l hl => ((no_plaintext (Runs.Reach.refl.of_exec hs) []).1 l hl).2⟩

end SmtpProxy
