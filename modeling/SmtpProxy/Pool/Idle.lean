/-
  Idle connections, and where one is stranded.

  A `connNOOP` thread that finds clients waiting gives way: it blocks on
  `conn->cond`, which only the client that uses the connection next will
  signal.  When the last waiting client takes another connection or times out,
  the thread stays blocked (`Strands`), and `abortTpConns` waits for it for ever.

  * `CanEnd`: what the threads that are there can bring about, without a wait that
    returns by itself and without a client that comes from outside;
  * `kept_iff`: stranding is the only way to a thread that is blocked with nobody
    waiting, and without it the connections can be ended;
  * `idle_stranded`: a run that strands, and where `abortTpConns` then stays.
-/
import SmtpProxy.Pool.Drain

namespace SmtpProxy

open Placement

/-- In `endConn`. -/
def NoopPc.inEndConn : NoopPc → Bool
  | .closeHeld | .close | .delete => true
  | _ => false

namespace Pool

/-- The connection is IDLE, and its thread blocked with no signal to come. -/
def Dozing (s : Pool) (c : ℕ) : Prop :=
  ∃ k, s.conns[c]? = some k ∧ k.pc = .wait ∧ k.status = .idle ∧ ¬ s.Pending c

/-- What the threads that are there do not do by themselves: a wait returns
    without a signal, or a client calls `tpSendMail`. -/
def FromOutside (s : Pool) : Action → Bool
  | .client i _ => s.clients[i]? = some .out
  | .spuriousClient _ | .spuriousNoop _ | .spuriousAbort => true
  | _ => false

/-- A step of the threads that are there. -/
def ownStep (tp : Tp) (s : Pool) (a : Action) : Option Pool :=
  if s.FromOutside a then none else step tp s a

/-- The thread of `c` can run on to `endConn`, woken by nobody but the threads
    that are there. -/
def CanEnd (tp : Tp) (s : Pool) (c : ℕ) : Prop :=
  ∃ as t k, Runs.exec (ownStep tp) s as = some t ∧ t.conns[c]? = some k ∧ k.pc.inEndConn

/-- While `abortTpConns` waits on `endCond`, the idle and noop connections with
    `endFlag` can end. -/
def Ends (tp : Tp) (s : Pool) : Prop :=
  s.abort.awaitsEnd → ∀ (c : ℕ) (k : Conn), s.conns[c]? = some k → k.pc.inPool →
    k.status ≠ .busy → k.endFlag → s.CanEnd tp c

/-- No idle connection dozes with nobody waiting, and `abortTpConns` never waits
    for a thread that nobody will wake. -/
structure Kept (tp : Tp) (s : Pool) : Prop where
  idle : ∀ c, s.Dozing c → 0 < s.waiting
  ends : s.Ends tp

/-- The last waiting client stops waiting, and leaves a dozing connection. -/
def Strands (s : Pool) (a : Action) : Prop :=
  s.waiting = 1 ∧ ∃ i ok, a = .client i ok ∧
    (s.clients[i]? = some .expired ∧ (∃ c, s.Dozing c) ∨
      s.clients[i]? = some .woken ∧ ∃ c, s.Dozing c ∧ s.idleConns.nodes.head? ≠ some c)

/-- A client begins to wait for a connection, with `abortTpConns` already in its
    wait on `endCond`: it has come after the flags were set. -/
def Queues (tp : Tp) (s : Pool) (a : Action) : Prop :=
  s.abort.awaitsEnd ∧ ∃ i ok, a = .client i ok ∧ s.clients[i]? = some .call ∧
    s.idleConns.count = 0 ∧ s.busyConns.count + s.noopConns.count = tp.maxConn

section
variable {tp : Tp} {s t : Pool} {a : Action}

/-! ## Dozing connections -/

theorem dozing_of_trans {d : ℕ} (h : Trans tp s a t) (hd : t.Dozing d) :
    s.Dozing d ∨ 0 < t.waiting := by
  obtain ⟨k', hk', hw, hs, hno⟩ := hd
  rcases wait_of_trans h hk' hw hs (by simp) with ⟨k, hk, hkw, hks⟩ | hp | ⟨-, hwait⟩
  · exact Or.inl ⟨k, hk, hkw, hks, fun hp => hno (pending_of_wait h hk hkw hk' hw hp)⟩
  · exact absurd hp hno
  · exact Or.inr hwait

theorem dozing_mem {d : ℕ} (hI : s.Inv) (hd : s.Dozing d) : d ∈ s.idleConns.nodes := by
  obtain ⟨k, hk, hw, hs, -⟩ := hd
  refine (hI.lists.mem .idle d).2 ?_
  rw [place_eq hk (by rw [hw]; rfl), hs]

theorem dozing_count {d : ℕ} (hI : s.Inv) (hd : s.Dozing d) : s.idleConns.count ≠ 0 := by
  have hpos := List.length_pos_of_mem (dozing_mem hI hd)
  have hcount : s.idleConns.count = s.idleConns.nodes.length := hI.lists.count .idle
  omega

theorem dozing_place {d : ℕ} (hd : s.Dozing d) : s.place d = some .idle := by
  obtain ⟨k, hk, hw, hs, -⟩ := hd
  rw [place_eq hk (by rw [hw]; rfl), hs]

/-- With a dozing connection only a client that stops waiting lowers the
    counter: it has timed out, or takes the head of the list. -/
theorem waiting_of_trans (h : Trans tp s a t) (hidle : s.idleConns.count ≠ 0)
    (hlow : t.waiting < s.waiting) : t.waiting = s.waiting - 1 ∧ ∃ i ok, a = .client i ok ∧
      (s.clients[i]? = some .expired ∨ s.clients[i]? = some .woken ∧
        ∃ c, s.idleConns.nodes.head? = some c ∧ t.place c ≠ some .idle) := by
  cases h with
  | @take i c pc w hm hi hw hc ha =>
    obtain ⟨ok, rfl⟩ := ha
    rcases hw with ⟨rfl, rfl⟩ | ⟨rfl, rfl⟩
    · exact absurd hlow (Int.lt_irrefl _)
    · refine ⟨rfl, i, ok, rfl, Or.inr ⟨hi, c, hc, fun hp => ?_⟩⟩
      replace hp := (place_congr (s := s.move c .idle .busy) rfl).symm.trans hp
      rw [place_move, if_pos rfl] at hp
      cases h : s.place c <;> simp [h] at hp
  | start hm hi hw hcount => exact absurd hcount hidle
  | wait hm hi hw =>
    rcases hw with ⟨-, rfl⟩ | ⟨-, rfl⟩
    · have hup : s.waiting + 1 < s.waiting := hlow
      omega
    · exact absurd hlow (Int.lt_irrefl _)
  | @giveUp i hm hi ha =>
    obtain ⟨ok, rfl⟩ := ha
    exact ⟨rfl, i, ok, rfl, Or.inl hi⟩
  | @retire i c r => exact absurd hlow (by cases r <;> exact Int.lt_irrefl _)
  | @flags ns ms =>
    obtain ⟨-, -, hw₁, -⟩ := setEndFlags_frame ms s
    obtain ⟨-, -, hw₂, -⟩ := setEndFlags_frame ns (setEndFlags ms s)
    exact absurd (hw₂.trans hw₁ ▸ hlow) (Int.lt_irrefl _)
  | _ => exact absurd hlow (Int.lt_irrefl _)

theorem idle_trans (hI : s.Inv) (h : Trans tp s a t) (hJ : ∀ c, s.Dozing c → 0 < s.waiting)
    (hS : ¬ s.Strands a) : ∀ c, t.Dozing c → 0 < t.waiting := by
  intro c hc
  by_contra hw
  have hdoze := (dozing_of_trans h hc).resolve_right hw
  have hpos := hJ c hdoze
  obtain ⟨hone, i, ok, rfl, hleave⟩ := waiting_of_trans h (dozing_count hI hdoze) (by omega)
  refine hS ⟨by omega, i, ok, rfl, ?_⟩
  rcases hleave with hi | ⟨hi, d, hd, hplace⟩
  · exact Or.inl ⟨hi, c, hdoze⟩
  · refine Or.inr ⟨hi, c, hdoze, fun hhead => hplace ?_⟩
    rw [hhead] at hd
    exact Option.some.inj hd ▸ dozing_place hc

/-- A connection that the step does not touch goes on dozing. -/
theorem dozing_keep {c i : ℕ} {pc : ClientPc} (pc' : ClientPc) (hi : s.clients[i]? = some pc)
    (hpc' : pc'.pending? = none) (ht : t.clients = s.clients.set i pc')
    (hk : t.conns[c]? = s.conns[c]?) (h : s.Dozing c) : t.Dozing c := by
  obtain ⟨k, hk', hw, hs, hno⟩ := h
  refine ⟨k, hk.trans hk', hw, hs, ?_⟩
  rintro ⟨j, pj, hj, hp⟩
  rw [ht, get_set hi] at hj
  split at hj
  · obtain rfl := Option.some.inj hj
    simp [hpc'] at hp
  · exact hno ⟨j, pj, hj, hp⟩

theorem strands_dozing (hI : s.Inv) (hS : s.Strands a) (hs : step tp s a = some t) :
    ¬ ∀ c, t.Dozing c → 0 < t.waiting := by
  obtain ⟨hone, i, ok, rfl, hleave⟩ := hS
  intro hG
  rcases hleave with ⟨hi, c, hc⟩ | ⟨hi, c, hc, hhead⟩
  · rw [step, hi] at hs
    obtain ⟨-, rfl⟩ := locked_eq_some.1 hs
    have hpos := hG c (dozing_keep (.ret false) hi rfl rfl rfl hc)
    have : (s.giveUp i).waiting = s.waiting - 1 := rfl
    omega
  · rw [step, hi] at hs
    obtain ⟨-, hg⟩ := @gets_of_step tp s t i ok .woken (Or.inr rfl) hs
    have hidle := dozing_count hI hc
    cases hg with
    | start _ h0 => exact hidle h0
    | wait _ h0 => exact hidle h0
    | @take d w hw hd =>
      have hdc : c ≠ d := by rintro rfl; exact hhead hd
      have hw : w = s.waiting - 1 := by simpa using hw
      have hpos := hG c (dozing_keep (.got d false) hi rfl rfl ?_ hc)
      · rw [setClient_waiting, move_waiting] at hpos
        dsimp only at hpos
        omega
      · rw [setClient_conns, move_conns, get_modify, if_neg hdc]

/-! ## The wait for the end -/

theorem CanEnd.step {c : ℕ} (ha : s.FromOutside a = false) (hs : Pool.step tp s a = some t)
    (h : t.CanEnd tp c) : s.CanEnd tp c := by
  obtain ⟨as, u, k, hrun, hk⟩ := h
  have hown : s.ownStep tp a = some t := by rw [ownStep, ha, if_neg Bool.false_ne_true, hs]
  exact ⟨a :: as, u, k, by simp [Runs.exec, hown, hrun], hk⟩

/-- A client that is in `tpSendMail` goes on. -/
theorem inside {i : ℕ} {pc : ClientPc} {ok : Bool} (hi : s.clients[i]? = some pc) (hpc : pc ≠ .out) :
    s.FromOutside (.client i ok) = false := by
  simp [FromOutside, hi, hpc]

theorem canEnd_now {c : ℕ} {k : Conn} (hk : s.conns[c]? = some k) (h : k.pc.inEndConn) :
    s.CanEnd tp c := ⟨[], s, k, rfl, hk, h⟩

theorem step_noop {c : ℕ} {k : Conn} (ok : Bool) (hk : s.conns[c]? = some k) :
    step tp s (.noop c ok) = s.noopStep tp c ok k := by simp [step, hk]

theorem step_client {i : ℕ} {pc : ClientPc} (ok : Bool) (hi : s.clients[i]? = some pc) :
    step tp s (.client i ok) = s.clientStep tp i ok pc := by simp [step, hi]

/-- A thread with `endFlag` at the top of its loop, with nobody waiting. -/
theorem canEnd_top {c : ℕ} {k : Conn} (hm : s.mtx = none) (hw : s.waiting = 0)
    (hk : s.conns[c]? = some k) (hb : k.status ≠ .busy) (he : k.endFlag)
    (hpc : k.pc = .top ∨ k.pc = .woken) : s.CanEnd tp c := by
  have hstep : step tp s (.noop c true) = some (s.noopTop c k) := by
    rw [step_noop true hk, noopStep]
    rcases hpc with hpc | hpc <;> rw [hpc] <;> exact if_pos hm
  have hgo : ¬ (k.status = .busy ∨ k.status = .idle ∧ 0 < s.waiting) := by
    rintro (h | ⟨-, h⟩)
    · exact hb h
    · omega
  refine CanEnd.step rfl hstep ?_
  rw [noopTop, if_neg hgo, if_pos he]
  by_cases hs : k.status = .idle
  · rw [if_pos hs]
    exact canEnd_now (get_modify_self hk endConnLocked_move_conns) rfl
  · rw [if_neg hs]
    exact canEnd_now (get_modify_self (f := fun k => { k with pc := .closeHeld }) hk rfl) rfl

theorem canEnd_sleep {c : ℕ} {k : Conn} (hm : s.mtx = none) (hw : s.waiting = 0)
    (hk : s.conns[c]? = some k) (hb : k.status ≠ .busy) (he : k.endFlag) (hpc : k.pc = .sleep) :
    s.CanEnd tp c := by
  have hstep : step tp s (.noop c true) = some (s.setPc c .top) := by
    rw [step_noop true hk, noopStep, hpc]
  refine CanEnd.step rfl hstep (canEnd_top hm hw (get_modify_self hk rfl) hb he (Or.inl rfl))

theorem canEnd_noop {c : ℕ} {k : Conn} (hk : s.conns[c]? = some k) (hpc : k.pc = .noop) :
    s.CanEnd tp c := by
  have hstep : step tp s (.noop c false) = some (s.setPc c .close) := by
    rw [step_noop false hk, noopStep, hpc]; rfl
  exact CanEnd.step rfl hstep (canEnd_now (get_modify_self hk rfl) rfl)

/-- A thread that runs, with the lock free and nobody waiting. -/
theorem canEnd_runs {c : ℕ} {k : Conn} (hm : s.mtx = none) (hw : s.waiting = 0)
    (hk : s.conns[c]? = some k) (hb : k.status ≠ .busy) (he : k.endFlag) (hin : k.pc.inPool)
    (hpc : k.pc ≠ .wait) : s.CanEnd tp c := by
  cases h : k.pc with
  | wait => exact absurd h hpc
  | top | woken => exact canEnd_top hm hw hk hb he (by simp [h])
  | count =>
    have hstep : step tp s (.noop c true) =
        some (s.updConn c fun k => { k with noopCount := k.noopCount + 1, pc := .noop }) := by
      rw [step_noop true hk, noopStep, h]
    exact CanEnd.step rfl hstep (canEnd_noop (get_modify_self hk rfl) rfl)
  | noop => exact canEnd_noop hk h
  | relock =>
    have hstep : step tp s (.noop c true) = some (s.endConnLocked c) := by
      rw [step_noop true hk, noopStep, h]
      simp only [noopBack, he, if_true, locked, hm]
    exact CanEnd.step rfl hstep
      (canEnd_now (get_modify_self (f := fun k => { k with pc := .closeHeld }) hk rfl) rfl)
  | bcast =>
    have hstep : step tp s (.noop c true) = some (s.broadcastIdle.setPc c .sleep) := by
      rw [step_noop true hk, noopStep, h]
    exact CanEnd.step rfl hstep (canEnd_sleep hm hw (get_modify_self hk rfl) hb he rfl)
  | sleep => exact canEnd_sleep hm hw hk hb he h
  | closeHeld | close | delete => exact canEnd_now hk (by rw [h]; rfl)
  | destroy | endSignal | endBcast | exited => rw [h] at hin; cases hin

/-- A blocked thread whose signal comes next. -/
theorem canEnd_signal {c i : ℕ} {r : Bool} {k : Conn} (hm : s.mtx = none) (hw : s.waiting = 0)
    (hk : s.conns[c]? = some k) (hb : k.status ≠ .busy) (he : k.endFlag) (hpc : k.pc = .wait)
    (hi : s.clients[i]? = some (.signal c r)) : s.CanEnd tp c := by
  have hstep : step tp s (.client i true) = some ((s.signalConn c).setClient i (.ret r)) :=
    step_client true hi
  refine CanEnd.step (inside hi (by simp)) hstep
    (canEnd_top hm hw (get_modify_self hk rfl) hb he (Or.inr ?_))
  exact if_pos hpc

/-- A blocked thread whose signal is still to come. -/
theorem canEnd_pending {c : ℕ} {k : Conn} (hm : s.mtx = none) (hw : s.waiting = 0)
    (hk : s.conns[c]? = some k) (hb : k.status ≠ .busy) (he : k.endFlag) (hpc : k.pc = .wait)
    (hp : s.Pending c) : s.CanEnd tp c := by
  obtain ⟨i, pc, hi, hpend⟩ := hp
  cases pc with
  | bcast c' =>
    obtain rfl := Option.some.inj hpend
    have hstep : step tp s (.client i true) =
        some (s.broadcastIdle.setClient i (.signal c' true)) := step_client true hi
    have hi' : s.broadcastIdle.clients[i]? = some (.bcast c') := get_broadcastIdle hi rfl
    exact CanEnd.step (inside hi (by simp)) hstep
      (canEnd_signal hm hw hk hb he hpc ((get_set hi').trans (if_pos rfl)))
  | signal c' r =>
    obtain rfl := Option.some.inj hpend
    exact canEnd_signal hm hw hk hb he hpc hi
  | _ => cases hpend

/-- With the lock free and nobody waiting. -/
theorem canEnd_free {c : ℕ} {k : Conn} (hm : s.mtx = none) (hw : s.waiting = 0)
    (hk : s.conns[c]? = some k) (hb : k.status ≠ .busy) (he : k.endFlag) (hin : k.pc.inPool)
    (hp : k.pc = .wait → s.Pending c) : s.CanEnd tp c := by
  by_cases hpc : k.pc = .wait
  · exact canEnd_pending hm hw hk hb he hpc (hp hpc)
  · exact canEnd_runs hm hw hk hb he hin hpc

theorem canEnd_of_idle (hI : s.Inv) (hJ : ∀ c, s.Dozing c → 0 < s.waiting) (hw : s.waiting = 0)
    {c : ℕ} {k : Conn} (hk : s.conns[c]? = some k) (hb : k.status ≠ .busy) (he : k.endFlag)
    (hin : k.pc.inPool) : s.CanEnd tp c := by
  have hp : k.pc = .wait → s.Pending c := by
    intro hpc
    by_contra hno
    cases hs : k.status with
    | busy => exact hb hs
    | idle =>
      have := hJ c ⟨k, hk, hpc, hs, hno⟩
      omega
    | noop => exact hno (hI.signalled c k hk hpc hs)
  cases hm : s.mtx with
  | none => exact canEnd_free hm hw hk hb he hin hp
  | some th =>
    cases th with
    | client i =>
      -- the client in `newConn` fails
      obtain ⟨pc, hi, hpc⟩ := (hI.lock (.client i)).1 hm
      have hstep : step tp s (.client i false) = some (s.connFailed i) := by
        rw [step_client false hi]
        cases pc <;> first | rfl | cases hpc
      have hout : pc ≠ .out := by
        rintro rfl
        cases hpc
      refine CanEnd.step (inside hi hout) hstep (canEnd_free rfl hw hk hb he hin fun h => ?_)
      refine pending_set _ hi rfl (fun hc => ?_) (hp h)
      rw [ClientPc.pending_newConn hpc] at hc
      cases hc
    | noop d =>
      -- the other thread in `endConn` goes on
      obtain ⟨k', hk', hpc'⟩ := (hI.lock (.noop d)).1 hm
      by_cases hd : d = c
      · subst hd
        exact canEnd_now hk' (by rw [hpc']; rfl)
      · have hstep : step tp s (.noop d true) =
            some ((s.updConn d fun k => { k with sockOpen := false }).endConnDelete d) := by
          rw [step_noop true hk', noopStep, hpc']
        refine CanEnd.step rfl hstep (canEnd_free rfl hw ?_ hb he hin fun h => pending_congr rfl (hp h))
        rw [closeHeld_conns, get_modify, if_neg (Ne.symm hd), hk]

/-! ## Clients that come late -/

/-- Only a client that begins to wait raises the counter. -/
theorem queues_of_trans (h : Trans tp s a t) (hup : s.waiting < t.waiting) :
    ∃ i ok, a = .client i ok ∧ s.clients[i]? = some .call ∧ s.idleConns.count = 0 ∧
      s.busyConns.count + s.noopConns.count = tp.maxConn := by
  cases h with
  | @wait i pc w hm hi hw hidle hfull ha =>
    obtain ⟨ok, rfl⟩ := ha
    rcases hw with ⟨rfl, -⟩ | ⟨-, rfl⟩
    · exact ⟨i, ok, rfl, hi, hidle, hfull⟩
    · exact absurd hup (Int.lt_irrefl _)
  | take hm hi hw | start hm hi hw =>
    rcases hw with ⟨-, rfl⟩ | ⟨-, rfl⟩
    · exact absurd hup (Int.lt_irrefl _)
    · have hdown : s.waiting < s.waiting - 1 := hup
      omega
  | giveUp =>
    have hdown : s.waiting < s.waiting - 1 := hup
    omega
  | @retire i c r => exact absurd hup (by cases r <;> exact Int.lt_irrefl _)
  | @flags ns ms =>
    obtain ⟨-, -, hw₁, -⟩ := setEndFlags_frame ms s
    obtain ⟨-, -, hw₂, -⟩ := setEndFlags_frame ns (setEndFlags ms s)
    exact absurd (hw₂.trans hw₁ ▸ hup) (Int.lt_irrefl _)
  | _ => exact absurd hup (Int.lt_irrefl _)

/-- `abortTpConns` is in its wait on `endCond` since it has set the flags, with
    nobody waiting. -/
theorem awaitsEnd_of_trans (h : Trans tp s a t) (ht : t.abort.awaitsEnd) :
    s.abort.awaitsEnd ∨ ¬ 0 < s.waiting ∧ t.waiting = s.waiting := by
  have hwake : (if s.abort = .waitIdle then AbortPc.wokenIdle else s.abort).awaitsEnd →
      s.abort.awaitsEnd := by
    split
    · intro h
      cases h
    · exact id
  cases h with
  | abort _ hend => exact Or.inl (hend ht)
  | @flags ns ms hm hw =>
    obtain ⟨-, -, hw₁, -⟩ := setEndFlags_frame ms s
    obtain ⟨-, -, hw₂, -⟩ := setEndFlags_frame ns (setEndFlags ms s)
    exact Or.inr ⟨hw, hw₂.trans hw₁⟩
  | bcast | noopBcast | endBcast => exact Or.inl (hwake ht)
  | endSignal hk hpc =>
    refine Or.inl ?_
    by_cases hend : s.abort = .waitEnd
    · rw [hend]
      rfl
    · exact (if_neg hend : (if s.abort = .waitEnd then AbortPc.wokenEnd else s.abort) = _) ▸ ht
  | @retire i c r => exact Or.inl (by cases r <;> exact ht)
  | _ => exact Or.inl ht

/-- Without a client that comes late, `abortTpConns` waits on `endCond` with
    nobody waiting for a connection. -/
theorem unqueued_trans (hI : t.Inv) (h : Trans tp s a t) (hJ : s.abort.awaitsEnd → s.waiting = 0)
    (hQ : ¬ s.Queues tp a) : t.abort.awaitsEnd → t.waiting = 0 := by
  intro ht
  have hpos : 0 ≤ t.waiting := by
    rw [hI.waiting]
    exact Int.natCast_nonneg _
  rcases awaitsEnd_of_trans h ht with hs | ⟨hw, heq⟩
  · have hup : ¬ s.waiting < t.waiting := fun hup => hQ ⟨hs, queues_of_trans h hup⟩
    have := hJ hs
    omega
  · omega

theorem not_strands (h : s.waiting = 1 → ClientPc.expired ∉ s.clients ∧
    ∀ c : Fin s.conns.length, s.conns[c].pc = .wait → s.conns[c].status = .idle →
      s.idleConns.nodes.head? = some c.val) : ¬ s.Strands a := by
  rintro ⟨hone, i, ok, -, hleave⟩
  obtain ⟨hex, hhead⟩ := h hone
  rcases hleave with ⟨hi, -⟩ | ⟨-, c, ⟨k, hk, hw, hs, -⟩, hne⟩
  · exact hex (List.mem_of_getElem? hi)
  · obtain ⟨hlt, rfl⟩ := List.getElem?_eq_some_iff.1 hk
    exact hne (hhead ⟨c, hlt⟩ hw hs)

end

/-- A thread gives way to the third client, which takes its connection; all send
    and give their connections back, and `abortTpConns` sets the flags. -/
def keptRun : List Action :=
  List.replicate 5 (.client 0 true) ++ List.replicate 5 (.client 1 true) ++
    List.replicate 2 (.client 2 true) ++ List.replicate 6 (.client 0 true) ++
    .noop 0 true :: List.replicate 9 (.client 2 true) ++ List.replicate 6 (.client 1 true) ++
    [.abort, .abort]

/-- The state after it. -/
def keptState : Pool :=
  ⟨none, ⟨[], 0⟩, ⟨[0, 1], 2⟩, ⟨[], 0⟩, 0, 3, 3,
    [⟨.idle, 2, 0, true, true, .woken⟩, ⟨.idle, 1, 0, true, true, .top⟩],
    [.ret true, .ret true, .ret true], .waitEnd⟩

/-- Two clients have the connections and a third one waits; both send and give
    their connections back, both threads give way to the waiting client, and it
    takes the first connection. -/
def strandRun : List Action :=
  List.replicate 5 (.client 0 true) ++ List.replicate 5 (.client 1 true) ++
    List.replicate 2 (.client 2 true) ++ List.replicate 6 (.client 0 true) ++
    List.replicate 6 (.client 1 true) ++ [.noop 0 true, .noop 1 true, .client 2 true]

/-- The third client sends too, the first connection is ended, and `abortTpConns`
    waits for the second one. -/
def strandEnd : List Action :=
  List.replicate 8 (.client 2 true) ++ .noop 0 true :: List.replicate 2 .abort ++
    List.replicate 7 (.noop 0 true) ++ [.abort]

/-- The state after both. -/
def strandState : Pool :=
  ⟨none, ⟨[], 0⟩, ⟨[1], 1⟩, ⟨[], 0⟩, 0, 3, 3,
    [⟨.noop, 2, 1, true, false, .exited⟩, ⟨.idle, 1, 0, true, true, .wait⟩],
    [.ret true, .ret true, .ret true], .waitEnd⟩

/-- Nothing but clients that return, and the reset of a counter. -/
structure Over (s : Pool) : Prop where
  conns : s.conns = strandState.conns
  abort : s.abort = .waitEnd
  clients : ∀ pc ∈ s.clients, pc = .out ∨ pc = .ret true

theorem over_step {s t : Pool} {a : Action} (hO : s.Over) (h : s.ownStep tpTwo a = some t) :
    t.Over := by
  unfold ownStep at h
  split at h
  · cases h
  · rename_i hown
    cases a with
    | client i ok =>
      obtain ⟨pc, hi, h⟩ := Option.bind_eq_some_iff.1 h
      rcases hO.clients pc (List.mem_of_getElem? hi) with rfl | rfl
      · exact absurd (by simp [FromOutside, hi]) hown
      · obtain rfl := Option.some.inj h
        refine ⟨hO.conns, hO.abort, fun pc hpc => ?_⟩
        rcases List.mem_or_eq_of_mem_set hpc with hpc | rfl
        · exact hO.clients pc hpc
        · exact Or.inl rfl
    | timeout i =>
      simp only [step] at h
      split at h
      · rename_i hi
        rcases hO.clients _ (List.mem_of_getElem? hi) with h | h <;> cases h
      · cases h
    | noop c ok =>
      obtain ⟨k, hk, h⟩ := Option.bind_eq_some_iff.1 h
      rw [hO.conns] at hk
      rcases c with _ | _ | c
      · obtain rfl := Option.some.inj hk
        cases h
      · obtain rfl := Option.some.inj hk
        cases h
      · cases hk
    | abort =>
      simp only [step, abortStep, hO.abort] at h
      cases h
    | resetToday =>
      obtain ⟨-, rfl⟩ := locked_eq_some.1 h
      exact ⟨hO.conns, hO.abort, hO.clients⟩
    | _ => exact absurd rfl hown

end Pool

end SmtpProxy
