/-
  What the threads rely on when they use a connection: where the SMTP session
  on it stands.  A connection changes hands with its session at rest; whoever
  takes it has to know what may come next on it, and `isNewConn`, `endFlag` and
  `status` are all there is to know it from.

  * `needs_held`, `needs_owned`: only the thread that a connection belongs to
    relies on it;
  * `needs_of_step`: what a thread relies on after a step, some thread relied on
    before, unless the step begins or ends an exchange on that connection
    (`Grants`).
-/
import SmtpProxy.Pool.Threads

namespace SmtpProxy

/-- Where a session stands between two exchanges. -/
inductive Stage where
  | clear  -- set up, or reset
  | used  -- after a mail transaction
  deriving DecidableEq

inductive Need where
  | rest (st : Stage)  -- no exchange is under way
  | talk (st : Stage)  -- one is, that leads to `st`
  deriving DecidableEq

/-- The connection that `newConn` sets up, or one of `conns`. -/
inductive Chan where
  | fresh
  | conn (c : ℕ)
  deriving DecidableEq

def ClientPc.need? : ClientPc → Option (Chan × Need)
  | .setup => some (.fresh, .talk .clear)
  | .got c isNew => some (.conn c, .rest (if isNew then .clear else .used))
  | .rset c => some (.conn c, .talk .clear)
  | .mail c => some (.conn c, .talk .used)
  | .sent c | .limit c | .pause c | .release c => some (.conn c, .rest .used)
  | _ => none

def Conn.need? (k : Conn) : Option Need :=
  match k.pc with
  | .noop => some (.talk .used)
  | .count | .relock => some (.rest .used)
  | _ => if k.status = .idle then some (.rest .used) else none

/-- The connection on which a step of a client begins or ends an exchange, if
    there are `len` connections. -/
def ClientPc.grants? (len : ℕ) : ClientPc → Option Chan
  | .connect => some .fresh
  | .setup => some (.conn len)
  | .got c _ | .rset c | .mail c => some (.conn c)
  | _ => none

namespace Pool

def Needs (s : Pool) (ch : Chan) (n : Need) : Prop :=
  (∃ (i : ℕ) (pc : ClientPc), s.clients[i]? = some pc ∧ pc.need? = some (ch, n)) ∨
    ∃ (c : ℕ) (k : Conn), ch = .conn c ∧ s.conns[c]? = some k ∧ k.need? = some n

/-- The action begins or ends an exchange, after which this is relied on. -/
inductive Grants (s : Pool) : Action → Chan → Need → Prop
  | connect {i : ℕ} (hi : s.clients[i]? = some .connect) :
      Grants s (.client i true) .fresh (.talk .clear)
  | setup {i : ℕ} (hi : s.clients[i]? = some .setup) :
      Grants s (.client i true) (.conn s.conns.length) (.rest .clear)
  | got {i c : ℕ} {isNew ok : Bool} (hi : s.clients[i]? = some (.got c isNew)) :
      Grants s (.client i ok) (.conn c) (.talk (if isNew then .used else .clear))
  | rset {i c : ℕ} (hi : s.clients[i]? = some (.rset c)) :
      Grants s (.client i true) (.conn c) (.talk .used)
  | mail {i c : ℕ} (hi : s.clients[i]? = some (.mail c)) :
      Grants s (.client i true) (.conn c) (.rest .used)
  | count {c : ℕ} {k : Conn} {ok : Bool} (hk : s.conns[c]? = some k) (hpc : k.pc = .count) :
      Grants s (.noop c ok) (.conn c) (.talk .used)
  | noop {c : ℕ} {k : Conn} (hk : s.conns[c]? = some k) (hpc : k.pc = .noop) :
      Grants s (.noop c true) (.conn c) (.rest .used)

section
variable {tp : Tp} {s t : Pool} {a : Action}

/-! ## Whose need it is -/

theorem needs_client {i : ℕ} {pc : ClientPc} {ch : Chan} {n : Need} (hi : s.clients[i]? = some pc)
    (h : pc.need? = some (ch, n)) : s.Needs ch n := Or.inl ⟨i, pc, hi, h⟩

theorem needs_conn {c : ℕ} {k : Conn} {n : Need} (hk : s.conns[c]? = some k)
    (h : k.need? = some n) : s.Needs (.conn c) n := Or.inr ⟨c, k, rfl, hk, h⟩

/-- A client that relies on a connection holds it. -/
theorem holds_of_need {i c : ℕ} {pc : ClientPc} {n : Need} (hi : s.clients[i]? = some pc)
    (h : pc.need? = some (.conn c, n)) : s.holds i = some c := by
  rw [holds_eq hi]
  cases pc <;> simp_all [ClientPc.need?, ClientPc.conn?]

/-- `connNOOP` relies on connections that are not busy. -/
theorem not_busy_of_need {c : ℕ} {k : Conn} {n : Need} (hI : s.Inv) (hk : s.conns[c]? = some k)
    (h : k.need? = some n) : k.status ≠ .busy := by
  intro hs
  have howns : k.pc.owns = false := by
    cases ho : k.pc.owns with
    | false => rfl
    | true => cases hs.symm.trans ((hI.conn c k hk).owns ho)
  unfold Conn.need? at h
  revert h howns
  cases k.pc <;> simp [NoopPc.owns, hs]

theorem fresh_of_need {pc : ClientPc} {n : Need} (h : pc.need? = some (.fresh, n)) :
    pc = .setup ∧ n = .talk .clear := by
  cases pc <;> simp_all [ClientPc.need?]

/-- Whoever holds a connection relies on it, and nobody else does. -/
theorem needs_held {i c : ℕ} {pc : ClientPc} {n : Need} (hI : s.Inv) (hi : s.clients[i]? = some pc)
    (hc : pc.conn? = some c) (hn : s.Needs (.conn c) n) : pc.need? = some (.conn c, n) := by
  have hhold : s.holds i = some c := (holds_eq hi).trans hc
  rcases hn with ⟨j, pc', hj, hn⟩ | ⟨d, k, hd, hk, hn⟩
  · obtain rfl := hI.holders.unique i j c hhold (holds_of_need hj hn)
    obtain rfl := Option.some.inj (hi.symm.trans hj)
    exact hn
  · cases hd
    obtain ⟨k', hk', -, hs⟩ := place_eq_some.1 ((hI.holders.busy_iff c).2 ⟨i, hhold⟩)
    obtain rfl := Option.some.inj (hk.symm.trans hk')
    exact absurd hs (not_busy_of_need hI hk hn)

theorem needs_owned {c : ℕ} {k : Conn} {n : Need} (hI : s.Inv) (hk : s.conns[c]? = some k)
    (ho : k.pc.owns) (hn : s.Needs (.conn c) n) : k.need? = some n := by
  rcases hn with ⟨j, pc, hj, hn⟩ | ⟨d, k', hd, hk', hn⟩
  · have hbusy := (hI.holders.busy_iff c).2 ⟨j, holds_of_need hj hn⟩
    obtain ⟨k', hk', -, hs⟩ := place_eq_some.1 hbusy
    obtain rfl := Option.some.inj (hk.symm.trans hk')
    cases hs.symm.trans ((hI.conn c k hk).owns ho)
  · cases hd
    obtain rfl := Option.some.inj (hk.symm.trans hk')
    exact hn

/-- `newConn` holds the lock. -/
theorem not_needs_fresh {n : Need} (hI : s.Inv) (hm : s.mtx = none) : ¬ s.Needs .fresh n := by
  rintro (⟨i, pc, hi, hn⟩ | ⟨c, k, hc, -, -⟩)
  · obtain ⟨rfl, -⟩ := fresh_of_need hn
    have hlock := (hI.lock (.client i)).2 ⟨_, hi, rfl⟩
    cases hm.symm.trans hlock
  · cases hc

theorem needs_fresh {n : Need} (hn : s.Needs .fresh n) : n = .talk .clear := by
  rcases hn with ⟨i, pc, hi, hn⟩ | ⟨c, k, hc, -, -⟩
  · exact (fresh_of_need hn).2
  · cases hc

/-! ## The thread that takes the step -/

/-- A connection at rest in `idleConns`. -/
theorem need_idle {c : ℕ} {k : Conn} (hI : s.Inv) (hk : s.conns[c]? = some k)
    (hs : k.status = .idle) : k.need? = some (.rest .used) := by
  have howns : k.pc.owns = false := by
    cases ho : k.pc.owns with
    | false => rfl
    | true => cases hs.symm.trans ((hI.conn c k hk).owns ho)
  unfold Conn.need?
  revert howns
  cases k.pc <;> simp [NoopPc.owns, hs]

theorem needs_head {c : ℕ} (hI : s.Inv) (h : s.idleConns.nodes.head? = some c) :
    s.Needs (.conn c) (.rest .used) := by
  obtain ⟨k, hk, -, hs⟩ := place_eq_some.1 ((hI.lists.mem .idle c).1 (List.mem_of_head? h))
  exact needs_conn hk (need_idle hI hk hs)

/-- What the client `i` relies on after its step. -/
def Carries (s t : Pool) (a : Action) (i : ℕ) : Prop :=
  ∃ pc, t.clients[i]? = some pc ∧
    ∀ ch n, pc.need? = some (ch, n) → s.Needs ch n ∨ Grants s a ch n

theorem Carries.set {i : ℕ} {pc : ClientPc} (pc' : ClientPc) (hi : s.clients[i]? = some pc)
    (ht : t.clients = s.clients.set i pc')
    (h : ∀ ch n, pc'.need? = some (ch, n) → s.Needs ch n ∨ Grants s a ch n) : Carries s t a i :=
  ⟨pc', by rw [ht, get_set hi, if_pos rfl], h⟩

theorem carries_clientStep {i : ℕ} {ok : Bool} {pc : ClientPc} (hI : s.Inv)
    (hi : s.clients[i]? = some pc) (h : s.clientStep tp i ok pc = some t) :
    Carries s t (.client i ok) i := by
  -- the thread goes on with what it relied on
  have keep : ∀ pc' : ClientPc, t.clients = s.clients.set i pc' →
      pc'.need? = pc.need? ∨ pc'.need? = none → Carries s t (.client i ok) i := by
    intro pc' ht hpc
    refine .set pc' hi ht fun ch n hn => Or.inl ?_
    rcases hpc with hpc | hpc
    · exact needs_client hi (hpc ▸ hn)
    · cases hpc.symm.trans hn
  cases pc with
  | call | woken =>
    obtain ⟨-, hg⟩ := gets_of_step (by simp) h
    cases hg with
    | take _ hc =>
      refine .set _ hi rfl fun ch n hn => Or.inl ?_
      cases hn
      exact needs_head hI hc
    | start | wait => exact .set _ hi rfl fun _ _ h => by cases h
  | wait => cases h
  | connect =>
    obtain rfl := Option.some.inj h
    cases ok with
    | false => exact keep (.ret false) rfl (Or.inr rfl)
    | true =>
      refine .set .setup hi rfl fun ch n hn => Or.inr ?_
      cases hn
      exact .connect hi
  | setup =>
    obtain rfl := Option.some.inj h
    cases ok with
    | false => exact keep (.ret false) rfl (Or.inr rfl)
    | true =>
      refine .set (.got s.conns.length true) hi rfl fun ch n hn => Or.inr ?_
      cases hn
      exact .setup hi
  | got c isNew =>
    obtain rfl := Option.some.inj h
    refine .set _ hi rfl fun ch n hn => Or.inr ?_
    cases isNew with
    | false => cases hn; exact .got hi
    | true => cases hn; exact .got hi
  | rset c =>
    obtain rfl := Option.some.inj h
    cases ok with
    | false => exact keep (.retire c false) rfl (Or.inr rfl)
    | true =>
      refine .set (.mail c) hi rfl fun ch n hn => Or.inr ?_
      cases hn
      exact .rset hi
  | mail c =>
    obtain rfl := Option.some.inj h
    cases ok with
    | false => exact keep (.retire c false) rfl (Or.inr rfl)
    | true =>
      refine .set (.sent c) hi rfl fun ch n hn => Or.inr ?_
      cases hn
      exact .mail hi
  | sent c =>
    obtain rfl := Option.some.inj h
    exact keep (.limit c) rfl (Or.inl rfl)
  | limit c =>
    obtain ⟨k, -, rfl⟩ := Option.map_eq_some_iff.1 h
    refine keep _ rfl ?_
    split_ifs
    · exact Or.inr rfl
    · exact Or.inl rfl
    · exact Or.inl rfl
  | pause c =>
    obtain rfl := Option.some.inj h
    exact keep (.release c) rfl (Or.inl rfl)
  | release c =>
    obtain ⟨-, rfl⟩ := locked_eq_some.1 h
    exact keep (.bcast c) rfl (Or.inr rfl)
  | retire c r =>
    obtain ⟨-, rfl⟩ := locked_eq_some.1 h
    exact keep (.signal c r) (by cases r <;> rfl) (Or.inr rfl)
  | bcast c =>
    obtain rfl := Option.some.inj h
    refine ⟨.signal c true, ?_, fun _ _ h => by cases h⟩
    have hi' : s.broadcastIdle.clients[i]? = some (.bcast c) := get_broadcastIdle hi rfl
    rw [setClient_clients, get_set hi', if_pos rfl]
  | out | expired | signal c r | ret r =>
    first
      | obtain rfl := Option.some.inj h
      | obtain ⟨-, rfl⟩ := locked_eq_some.1 h
    exact keep _ rfl (Or.inr rfl)

/-- What `connNOOP` relies on after its step. -/
def CarriesConn (s t : Pool) (a : Action) (c : ℕ) : Prop :=
  ∃ k, t.conns[c]? = some k ∧
    ∀ n, k.need? = some n → s.Needs (.conn c) n ∨ Grants s a (.conn c) n

theorem CarriesConn.modify {c : ℕ} {k : Conn} {f : Conn → Conn} (hk : s.conns[c]? = some k)
    (ht : t.conns = s.conns.modify c f)
    (h : ∀ n, (f k).need? = some n → s.Needs (.conn c) n ∨ Grants s a (.conn c) n) :
    CarriesConn s t a c := ⟨f k, get_modify_self hk ht, h⟩

/-- A connection that its thread does not own is relied on while it is idle. -/
theorem need_of_not_owns {k : Conn} {n : Need} (h : k.pc.owns = false) (hn : k.need? = some n) :
    k.status = .idle ∧ n = .rest .used := by
  unfold Conn.need? at hn
  revert h hn
  cases k.pc <;> simp +contextual [NoopPc.owns, eq_comm]

theorem carries_noopTop {c : ℕ} {k : Conn} (hI : s.Inv) (hk : s.conns[c]? = some k)
    (hpc : k.pc = .top ∨ k.pc = .woken) : CarriesConn s (s.noopTop c k) a c := by
  have hin : k.pc.inPool := by rcases hpc with h | h <;> rw [h] <;> rfl
  have howns : k.pc.owns = false := by rcases hpc with h | h <;> rw [h] <;> rfl
  have hidle : ∀ n, k.status = .idle → n = .rest .used → s.Needs (.conn c) n := by
    rintro n hs rfl
    exact needs_conn hk (need_idle hI hk hs)
  unfold noopTop
  split_ifs with hw hs he he
  · refine .modify hk rfl fun n hn => Or.inl ?_
    obtain ⟨hs, hn⟩ := need_of_not_owns rfl hn
    exact hidle n hs hn
  · refine .modify hk endConnLocked_move_conns fun n hn => ?_
    simp [Conn.need?] at hn
  · refine .modify hk (setPc_move_conns ..) fun n hn => Or.inl ?_
    cases hn
    exact hidle _ hs rfl
  · refine .modify (f := fun k => { k with pc := .closeHeld }) hk rfl fun n hn => Or.inl ?_
    simp only [Conn.need?, hs, if_false] at hn
    cases hn
  · -- the status is noop, which no connection has at this place without `endFlag`
    obtain ⟨hbusy, -⟩ := not_or.1 hw
    have hnoop : k.status = .noop := by
      cases hst : k.status with
      | busy => exact absurd hst hbusy
      | idle => exact absurd hst hs
      | noop => rfl
    exact absurd ((hI.conn c k hk).flagged hin howns hnoop) he

theorem carries_noopStep {c : ℕ} {ok : Bool} {k : Conn} (hI : s.Inv) (hk : s.conns[c]? = some k)
    (h : s.noopStep tp c ok k = some t) : CarriesConn s t (.noop c ok) c := by
  unfold noopStep at h
  -- the thread closes the connection, or has not had it
  have other : ∀ {f : Conn → Conn}, t.conns = s.conns.modify c f → (f k).status = k.status →
      (f k).pc.owns = false → CarriesConn s t (.noop c ok) c := by
    intro f ht hs howns
    refine .modify hk ht fun n hn => Or.inl ?_
    obtain ⟨hidle, rfl⟩ := need_of_not_owns howns hn
    exact needs_conn hk (need_idle hI hk (hs ▸ hidle))
  have close : ∀ {f : Conn → Conn}, t.conns = s.conns.modify c f → (f k).status = k.status →
      k.pc.owns → (f k).need? = (if (f k).status = .idle then some (.rest .used) else none) →
      CarriesConn s t (.noop c ok) c := by
    intro f ht hs howns hneed
    refine .modify hk ht fun n hn => ?_
    rw [hneed, hs, (hI.conn c k hk).owns howns] at hn
    cases hn
  cases hpc : k.pc with
  | top | woken =>
    simp only [hpc] at h
    obtain ⟨-, rfl⟩ := locked_eq_some.1 h
    exact carries_noopTop hI hk (by simp [hpc])
  | wait | exited => simp [hpc] at h
  | count =>
    simp only [hpc] at h
    obtain rfl := Option.some.inj h
    refine .modify hk rfl fun n hn => Or.inr ?_
    cases hn
    exact .count hk hpc
  | noop =>
    simp only [hpc] at h
    split at h
    · obtain rfl := Option.some.inj h
      exact close (f := fun k => { k with pc := .close }) rfl rfl (by rw [hpc]; rfl) rfl
    · rename_i hend
      obtain rfl := Option.some.inj h
      refine .modify (f := fun k => { k with pc := .relock }) hk rfl fun n hn => Or.inr ?_
      cases hn
      cases ok with
      | false => exact absurd rfl hend
      | true => exact .noop hk hpc
  | relock =>
    simp only [hpc, noopBack] at h
    obtain ⟨-, h⟩ := locked_eq_some.1 h
    split at h
    · obtain rfl := h
      exact close (f := fun k => { k with pc := .closeHeld }) rfl rfl (by rw [hpc]; rfl) rfl
    · obtain rfl := h
      refine .modify hk (setPc_move_conns ..) fun n hn => Or.inl ?_
      cases hn
      exact needs_conn hk (by simp [Conn.need?, hpc])
  | bcast | sleep | destroy | endSignal | endBcast =>
    simp only [hpc] at h
    obtain rfl := Option.some.inj h
    exact other rfl rfl rfl
  | closeHeld =>
    simp only [hpc] at h
    obtain rfl := Option.some.inj h
    exact other closeHeld_conns rfl rfl
  | close =>
    simp only [hpc] at h
    obtain rfl := Option.some.inj h
    exact close rfl rfl (by rw [hpc]; rfl) rfl
  | delete =>
    simp only [hpc] at h
    obtain ⟨-, rfl⟩ := locked_eq_some.1 h
    exact other (f := fun k => { k with pc := .destroy }) rfl rfl rfl

/-! ## Any step -/

theorem idle_modify {c d : ℕ} {f : Conn → Conn} {k' : Conn} (ht : t.conns = s.conns.modify c f)
    (hk' : t.conns[d]? = some k')
    (hf : ∀ k, s.conns[c]? = some k → (f k).status = .idle → k.status = .idle)
    (hs : k'.status = .idle) : ∃ k, s.conns[d]? = some k ∧ k.status = .idle := by
  rw [ht, get_modify] at hk'
  split at hk'
  · subst d
    obtain ⟨k, hk, rfl⟩ := Option.map_eq_some_iff.1 hk'
    exact ⟨k, hk, hf k hk hs⟩
  · exact ⟨k', hk', hs⟩

/-- An idle connection was idle before, or has just been given back. -/
theorem idle_of_trans {d : ℕ} {k' : Conn} (h : Trans tp s a t) (hk' : t.conns[d]? = some k')
    (hs : k'.status = .idle) : (∃ k, s.conns[d]? = some k ∧ k.status = .idle) ∨
      (∃ i : ℕ, s.clients[i]? = some (.release d)) ∨
      ∃ k, s.conns[d]? = some k ∧ k.pc = .relock := by
  cases h with
  | client | start | wait | giveUp | connFailed | bcast | abort | resetToday =>
    exact Or.inl ⟨k', hk', hs⟩
  | use hi hc h hf =>
    exact Or.inl (idle_modify rfl hk' (fun k _ h => (hf k).status.symm.trans h) hs)
  | take =>
    exact Or.inl (idle_modify (f := fun k => { k with status := .busy }) rfl hk'
      (fun _ _ h => by cases h) hs)
  | connAdded hi =>
    replace hk' : (s.conns ++ [Conn.added])[d]? = some k' := hk'
    rw [get_added] at hk'
    split at hk'
    · obtain rfl := Option.some.inj hk'
      cases hs
    · exact Or.inl ⟨k', hk', hs⟩
  | @release i c hm hi =>
    by_cases hd : d = c
    · subst hd
      exact Or.inr (Or.inl ⟨i, hi⟩)
    · rw [show (s.releaseConn i c).conns = s.conns.modify c _ from rfl, get_modify, if_neg hd] at hk'
      exact Or.inl ⟨k', hk', hs⟩
  | @retire i c r =>
    exact Or.inl (idle_modify (retireConn_conns r) hk' (fun _ _ h => by cases h) hs)
  | signal hi =>
    exact Or.inl (idle_modify (f := fun k => { k with pc := if k.pc = .wait then .woken else k.pc })
      rfl hk' (fun _ _ h => h) hs)
  | noop hk h hf =>
    exact Or.inl (idle_modify rfl hk' (fun k _ h => (hf k).status.symm.trans h) hs)
  | noopWait | noopStart | endStart | noopBcast | close | delete | endSignal | endBcast =>
    exact Or.inl (idle_modify rfl hk' (fun _ _ h => by exact h) hs)
  | noopTake =>
    exact Or.inl (idle_modify (setPc_move_conns ..) hk' (fun _ _ h => by cases h) hs)
  | endTake =>
    exact Or.inl (idle_modify endConnLocked_move_conns hk' (fun _ _ h => by cases h) hs)
  | @noopBack c k hm hk hpc =>
    by_cases hd : d = c
    · subst hd
      exact Or.inr (Or.inr ⟨k, hk, hpc⟩)
    · rw [setPc_move_conns, get_modify, if_neg hd] at hk'
      exact Or.inl ⟨k', hk', hs⟩
  | closeHeld => exact Or.inl (idle_modify closeHeld_conns hk' (fun _ _ h => h) hs)
  | flags =>
    obtain ⟨k₂, hk₂, rfl⟩ := Option.map_eq_some_iff.1 ((get_setEndFlags ..).symm.trans hk')
    obtain ⟨k₁, hk₁, rfl⟩ := Option.map_eq_some_iff.1 ((get_setEndFlags ..).symm.trans hk₂)
    refine Or.inl ⟨k₁, hk₁, ?_⟩
    rw [← hs]; split <;> split <;> rfl

theorem needs_of_idle {c : ℕ} {k : Conn} (hI : s.Inv) (h : step tp s a = some t)
    (hk : t.conns[c]? = some k) (hs : k.status = .idle) : s.Needs (.conn c) (.rest .used) := by
  rcases idle_of_trans (trans_of_step h) hk hs with ⟨k', hk', hs'⟩ | ⟨i, hi⟩ | ⟨k', hk', hpc⟩
  · exact needs_conn hk' (need_idle hI hk' hs')
  · exact needs_client hi rfl
  · exact needs_conn hk' (by simp [Conn.need?, hpc])

/-- A thread that relies on a connection of its own goes on with it. -/
theorem needs_aside {c : ℕ} {k : Conn} {n : Need} (hI : s.Inv) (h : step tp s a = some t)
    (hc : ∀ ok, a ≠ .noop c ok) (hk : t.conns[c]? = some k) (hn : k.need? = some n) :
    s.Needs (.conn c) n := by
  by_cases hs : k.status = .idle
  · obtain rfl := Option.some.inj (hn.symm.trans (need_idle (inv_trans hI (trans_of_step h)) hk hs))
    exact needs_of_idle hI h hk hs
  · rcases aside_of_step hc h with ⟨f, hf, hget⟩ | ⟨-, hadd⟩
    · obtain ⟨k', hk', rfl⟩ := Option.map_eq_some_iff.1 (hget.symm.trans hk)
      refine needs_conn hk' ?_
      unfold Conn.need? at hn ⊢
      rcases hf k' with hpc | ⟨-, hpc⟩
      · -- the place of the thread alone says what it needs
        rw [hpc] at hn
        revert hn
        cases k'.pc <;> simp [hs]
      · rw [hpc] at hn
        simp [hs] at hn
    · obtain rfl := Option.some.inj (hadd.symm.trans hk)
      cases hn

/-- **What a step can make a thread rely on.** -/
theorem needs_of_step {ch : Chan} {n : Need} (hI : s.Inv) (h : step tp s a = some t)
    (hn : t.Needs ch n) : s.Needs ch n ∨ Grants s a ch n := by
  rcases hn with ⟨i, pc, hi, hn⟩ | ⟨c, k, rfl, hk, hn⟩
  · rcases a.client_or i with ⟨ok, rfl⟩ | ha
    · obtain ⟨pc₀, hi₀, h⟩ := Option.bind_eq_some_iff.1 h
      obtain ⟨pc', hi', hcarry⟩ := carries_clientStep hI hi₀ h
      obtain rfl := Option.some.inj (hi.symm.trans hi')
      exact hcarry ch n hn
    · obtain ⟨f, hf, hget⟩ := beside_of_step ha h
      obtain ⟨pc₀, hi₀, rfl⟩ := Option.map_eq_some_iff.1 (hget.symm.trans hi)
      rcases hf pc₀ with hpc | ⟨-, hpc | hpc⟩
      · exact Or.inl (needs_client hi₀ (hpc ▸ hn))
      · rw [hpc] at hn
        cases hn
      · rw [hpc] at hn
        cases hn
  · rcases a.noop_or c with ⟨ok, rfl⟩ | ha
    · obtain ⟨k₀, hk₀, h⟩ := Option.bind_eq_some_iff.1 h
      obtain ⟨k', hk', hcarry⟩ := carries_noopStep hI hk₀ h
      obtain rfl := Option.some.inj (hk.symm.trans hk')
      exact hcarry n hn
    · exact Or.inl (needs_aside hI h ha hk hn)

/-! ## Steps that begin or end an exchange -/

theorem grants_client {i : ℕ} {ok : Bool} {pc : ClientPc} {ch : Chan} {n : Need}
    (hi : s.clients[i]? = some pc) (h : Grants s (.client i ok) ch n) :
    pc.grants? s.conns.length = some ch := by
  cases h with
  | connect hi' | setup hi' | got hi' | rset hi' | mail hi' =>
    obtain rfl := Option.some.inj (hi.symm.trans hi')
    rfl

theorem grants_noop {c : ℕ} {ok : Bool} {k : Conn} {ch : Chan} {n : Need}
    (hk : s.conns[c]? = some k) (h : Grants s (.noop c ok) ch n) :
    ch = .conn c ∧ (k.pc = .count ∨ k.pc = .noop) := by
  cases h with
  | count hk' hpc =>
    obtain rfl := Option.some.inj (hk.symm.trans hk')
    exact ⟨rfl, Or.inl hpc⟩
  | noop hk' hpc =>
    obtain rfl := Option.some.inj (hk.symm.trans hk')
    exact ⟨rfl, Or.inr hpc⟩

theorem length_setEndFlags : ∀ (cs : List ℕ) (s : Pool), (setEndFlags cs s).conns.length = s.conns.length
  | [], _ => rfl
  | c :: cs, s => by
    rw [setEndFlags, length_setEndFlags cs, updConn_conns, List.length_modify]

theorem conns_length_of_trans (h : Trans tp s a t) : t.conns.length = s.conns.length ∨
    ∃ i, s.clients[i]? = some .setup ∧ t = s.connAdded i := by
  have modify : ∀ {c : ℕ} {f : Conn → Conn}, t.conns = s.conns.modify c f →
      t.conns.length = s.conns.length := by
    intro c f ht
    rw [ht, List.length_modify]
  cases h with
  | client | start | wait | giveUp | connFailed | bcast | abort | resetToday => exact Or.inl rfl
  | connAdded hi => exact Or.inr ⟨_, hi, rfl⟩
  | flags => exact Or.inl ((length_setEndFlags ..).trans (length_setEndFlags ..))
  | retire => exact Or.inl (modify (retireConn_conns _))
  | noopTake | noopBack => exact Or.inl (modify (setPc_move_conns ..))
  | endTake => exact Or.inl (modify endConnLocked_move_conns)
  | closeHeld => exact Or.inl (modify closeHeld_conns)
  | take | release => exact Or.inl (modify (move_conns ..))
  | use | signal | noop | noopWait | noopStart | endStart | noopBcast | close | delete | endSignal
  | endBcast => exact Or.inl (modify (updConn_conns ..))

/-- Only `newConn` adds connections. -/
theorem conns_length (h : step tp s a = some t)
    (ha : ∀ i : ℕ, s.clients[i]? = some .setup → a ≠ .client i true) :
    t.conns.length = s.conns.length := by
  rcases conns_length_of_trans (trans_of_step h) with hlen | ⟨i, hi, rfl⟩
  · exact hlen
  have hgot : (s.connAdded i).clients[i]? = some (.got s.conns.length true) :=
    (get_set hi).trans (if_pos rfl)
  rcases a.client_or i with ⟨ok, rfl⟩ | hne
  · cases ok with
    | true => exact absurd rfl (ha i hi)
    | false =>
      obtain ⟨pc, hi', h⟩ := Option.bind_eq_some_iff.1 h
      obtain rfl := Option.some.inj (hi.symm.trans hi')
      have hret : (s.connAdded i).clients[i]? = some (.ret false) := by
        rw [← Option.some.inj h]
        exact (get_set hi).trans (if_pos rfl)
      cases hgot.symm.trans hret
  · obtain ⟨f, hf, hget⟩ := beside_of_step hne h
    rw [hgot, hi, Option.map_some] at hget
    rcases hf .setup with hpc | ⟨hpc, -⟩
    · rw [hpc] at hget
      cases hget
    · cases hpc

end

end Pool

end SmtpProxy
