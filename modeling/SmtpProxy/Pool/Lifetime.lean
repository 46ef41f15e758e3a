/-
  How long connections and transports live.

  `endConn` destroys a connection after unlocking, and `freeTransports` the
  transport after `abortTpConns` has returned.  All wake-ups are sent without
  the lock: `tpSendMail` signals `conn->cond` after it has given the connection
  back, and `endConn`, `connNOOP` and `tpSendMail` signal `endCond` and
  broadcast `idleCond` last.  `Lifetime` is the pool with `freeTp`; its runs
  are those in which no client enters `getAnIdleConn` once `abortTpConns` has
  started.

  * `Sound`: no thread has an operation left on what has been destroyed;
  * `Misuses`: a step that names what has been destroyed;
  * `Premature`: a destruction that a signal or broadcast is still to follow;
  * `lifetime_iff`: a run is sound iff no step of it is premature.
-/
import SmtpProxy.Pool.Threads

namespace SmtpProxy

/-- Behind the `free` of `endConn`. -/
def NoopPc.destroyed : NoopPc → Bool
  | .endSignal | .endBcast | .exited => true
  | _ => false

/-- In `endConn`, behind the unlock and before its last broadcast. -/
def NoopPc.unlocked : NoopPc → Bool
  | .destroy | .endSignal | .endBcast => true
  | _ => false

/-- In `getAnIdleConn`. -/
def ClientPc.inGet : ClientPc → Bool
  | .call | .wait | .woken | .expired | .connect | .setup => true
  | _ => false

/-- Between the unlock of `busy -> idle` and the broadcast. -/
def ClientPc.unannounced : ClientPc → Bool
  | .bcast _ => true
  | _ => false

/-- The connection that the next operation of a client names. -/
def ClientPc.names? : ClientPc → Option ℕ
  | .got c _ | .rset c | .mail c | .sent c | .limit c | .release c | .retire c _ | .signal c _ => some c
  | _ => none

/-- The next operation of a `connNOOP` thread names its connection. -/
def NoopPc.namesConn : NoopPc → Bool
  | .wait | .endSignal | .endBcast | .exited => false
  | _ => true

/-- The next operation of a client names the transport. -/
def ClientPc.namesTp : ClientPc → Bool
  | .call | .wait | .woken | .expired | .connect | .setup | .mail _ | .limit _ | .release _
  | .retire _ _ | .bcast _ => true
  | _ => false

/-- The next operation of a `connNOOP` thread names the transport. -/
def NoopPc.namesTp : NoopPc → Bool
  | .count | .close | .destroy | .exited => false
  | _ => true

theorem NoopPc.destroyed_next {pc pc' : NoopPc} (h : pc' ∈ pc.next) (hd : pc'.destroyed) :
    pc = .destroy ∨ pc.destroyed := by
  cases pc with
  | destroy => exact Or.inl rfl
  | endSignal | endBcast => exact Or.inr rfl
  | _ => cases pc' <;> simp_all [next, destroyed]

/-- A client names a connection that it holds or has still to signal. -/
theorem ClientPc.left_of_names {pc : ClientPc} {c : ℕ} (h : pc.names? = some c) :
    pc.conn? = some c ∨ pc.pending? = some c := by
  cases pc with
  | signal d r => exact Or.inr h
  | got | rset | mail | sent | limit | release | retire => exact Or.inl h
  | _ => cases h

/-- A pool, and whether `freeTp` has destroyed its transport. -/
structure Lifetime where
  pool : Pool
  freed : Bool
  deriving DecidableEq

namespace Lifetime

inductive Act where
  | pool (a : Action)
  | freeTp
  deriving DecidableEq

def init (n : ℕ) : Lifetime := ⟨.init n, false⟩

/-- A client that is not in `tpSendMail` calls it. -/
def enters (s : Pool) : Action → Bool
  | .client i _ => s.clients[i]? = some .out
  | _ => false

/-- The pool goes on, but that no client enters after `abortTpConns` has
    started; `freeTransports` follows when it has returned. -/
def step (tp : Tp) (l : Lifetime) : Act → Option Lifetime
  | .pool a =>
    if enters l.pool a ∧ l.pool.abort ≠ .out then none
    else (l.pool.step tp a).map fun s => { l with pool := s }
  | .freeTp =>
    if l.pool.abort = .done ∧ l.freed = false then some { l with freed := true } else none

/-! ## What must not happen -/

/-- `endConn` has destroyed the connection `c`. -/
def Destroyed (s : Pool) (c : ℕ) : Prop := ∃ k, s.conns[c]? = some k ∧ k.pc.destroyed

/-- The operation that the action `a` performs names the connection `c`. -/
def NamesConn (s : Pool) : Action → ℕ → Prop
  | .client i _, c => ∃ pc, s.clients[i]? = some pc ∧
      (pc.names? = some c ∨ (pc = .call ∨ pc = .woken) ∧ c ∈ s.idleConns.nodes)
  | .noop d _, c => d = c ∧ ∃ k, s.conns[c]? = some k ∧ k.pc.namesConn
  | .abort, c => c ∈ s.noopConns.nodes ∨ c ∈ s.idleConns.nodes
  | _, _ => False

/-- The operation that the action `a` performs names the transport. -/
def NamesTp (s : Pool) : Action → Prop
  | .client i _ => ∃ pc, s.clients[i]? = some pc ∧ pc.namesTp
  | .noop c _ => ∃ k, s.conns[c]? = some k ∧ k.pc.namesTp
  | _ => False

/-- A step that names what has been destroyed. -/
def Misuses (l : Lifetime) : Act → Prop
  | .pool a => (∃ c, NamesConn l.pool a c ∧ Destroyed l.pool c) ∨ l.freed ∧ NamesTp l.pool a
  | .freeTp => False

/-- No thread has an operation left on what has been destroyed: a destroyed
    connection is in no list, held by no client, and none has still to signal
    it; of a destroyed transport no client and no `connNOOP` thread is left. -/
structure Sound (l : Lifetime) : Prop where
  listed : ∀ c st, Destroyed l.pool c → c ∉ (l.pool.list st).nodes
  held : ∀ c i, Destroyed l.pool c → l.pool.holds i ≠ some c
  signal : ∀ c, Destroyed l.pool c → ¬ l.pool.Pending c
  client : l.freed → ∀ (i : ℕ) (pc : ClientPc), l.pool.clients[i]? = some pc → pc.engaged = false
  thread : l.freed → ∀ (c : ℕ) (k : Conn), l.pool.conns[c]? = some k → k.pc = .exited

/-- The connection is destroyed while a client has still to signal its `cond`;
    or the transport, while there are connections in its lists, a client is in
    `getAnIdleConn`, or a client or `connNOOP` thread is between its unlock and
    its broadcast. -/
def Premature (l : Lifetime) : Act → Prop
  | .pool (.noop c _) => (∃ k, l.pool.conns[c]? = some k ∧ k.pc = .destroy) ∧ l.pool.Pending c
  | .pool _ => False
  | .freeTp => (∃ st, (l.pool.list st).nodes ≠ []) ∨
      (∃ (i : ℕ) (pc : ClientPc), l.pool.clients[i]? = some pc ∧ (pc.inGet ∨ pc.unannounced)) ∨
      ∃ (c : ℕ) (k : Conn), l.pool.conns[c]? = some k ∧ k.pc.unlocked

section
variable {tp : Tp} {n : ℕ} {l l' : Lifetime} {s t : Pool} {a : Action} {x : Act}

/-! ## Steps -/

theorem step_pool (h : step tp l (.pool a) = some l') :
    (enters l.pool a → l.pool.abort = .out) ∧ l.pool.step tp a = some l'.pool ∧
      l'.freed = l.freed := by
  rw [step] at h
  split at h
  · cases h
  · rename_i hin
    obtain ⟨s, hs, rfl⟩ := Option.map_eq_some_iff.1 h
    refine ⟨fun he => ?_, hs, rfl⟩
    by_contra hout
    exact hin ⟨he, hout⟩

theorem step_freeTp (h : step tp l .freeTp = some l') :
    l.pool.abort = .done ∧ l' = { l with freed := true } := by
  rw [step] at h
  split at h
  · rename_i hdone
    exact ⟨hdone.1, (Option.some.inj h).symm⟩
  · cases h

theorem reach_pool (h : Runs.Reach (step tp) (init n) l) :
    Runs.Reach (Pool.step tp) (.init n) l.pool := by
  refine h.inv (I := fun l => Runs.Reach (Pool.step tp) (.init n) l.pool) .refl ?_
  intro l x l' ih hx
  cases x with
  | pool a => exact ih.snoc (step_pool hx).2.1
  | freeTp => rw [(step_freeTp hx).2]; exact ih

/-! ## Connections -/

theorem not_destroyed_of_place {c : ℕ} {st : Status} (h : s.place c = some st) :
    ¬ Destroyed s c := by
  rintro ⟨k, hk, hd⟩
  obtain ⟨k', hk', hin, -⟩ := Pool.place_eq_some.1 h
  obtain rfl := Option.some.inj (hk.symm.trans hk')
  revert hd hin
  cases k.pc <;> simp [NoopPc.destroyed, NoopPc.inPool]

/-- Connections in a list, or held by a client, are alive. -/
theorem listed_of_inv (hI : s.Inv) {c : ℕ} {st : Status} (hd : Destroyed s c) :
    c ∉ (s.list st).nodes :=
  fun hc => not_destroyed_of_place ((hI.lists.mem st c).1 hc) hd

theorem held_of_inv (hI : s.Inv) {c i : ℕ} (hd : Destroyed s c) : s.holds i ≠ some c :=
  fun hi => not_destroyed_of_place ((hI.holders.busy_iff c).2 ⟨i, hi⟩) hd

/-- A connection is destroyed by its own thread. -/
theorem destroyed_of_step {c : ℕ} (h : s.step tp a = some t) (hd : Destroyed t c) :
    Destroyed s c ∨ ∃ ok, a = .noop c ok ∧ ∃ k, s.conns[c]? = some k ∧ k.pc = .destroy := by
  obtain ⟨k', hk', hd⟩ := hd
  rcases a.noop_or c with ⟨ok, rfl⟩ | ha
  · obtain ⟨k, hk, h⟩ := Option.bind_eq_some_iff.1 h
    obtain ⟨k₁, hk₁, hnext⟩ := Pool.next_noopStep hk h
    obtain rfl := Option.some.inj (hk₁.symm.trans hk')
    by_cases hpc : k.pc = .destroy
    · exact Or.inr ⟨ok, rfl, k, hk, hpc⟩
    · exact Or.inl ⟨k, hk, (NoopPc.destroyed_next hnext hd).resolve_left hpc⟩
  · rcases Pool.aside_of_step ha h with ⟨f, hf, hget⟩ | ⟨-, hadded⟩
    · rw [hget] at hk'
      obtain ⟨k, hk, rfl⟩ := Option.map_eq_some_iff.1 hk'
      refine Or.inl ⟨k, hk, ?_⟩
      rcases hf k with h | ⟨-, h⟩
      · rwa [h] at hd
      · rw [h] at hd; cases hd
    · obtain rfl := Option.some.inj (hadded.symm.trans hk')
      cases hd

theorem pending_back {i c : ℕ} {pc : ClientPc} (pc' : ClientPc) (hi : s.clients[i]? = some pc)
    (ht : t.clients = s.clients.set i pc') (hp : t.Pending c) :
    s.Pending c ∨ pc'.pending? = some c := by
  obtain ⟨j, pj, hj, hc⟩ := hp
  rw [ht, Pool.get_set hi] at hj
  split at hj
  · obtain rfl := Option.some.inj hj
    exact Or.inr hc
  · exact Or.inl ⟨j, pj, hj, hc⟩

theorem pending_back_wake {c : ℕ} (hp : s.broadcastIdle.Pending c) : s.Pending c := by
  obtain ⟨j, pj, hj, hc⟩ := hp
  rw [Pool.broadcastIdle_clients, List.getElem?_map] at hj
  obtain ⟨pc, hpc, rfl⟩ := Option.map_eq_some_iff.1 hj
  refine ⟨j, pc, hpc, ?_⟩
  cases pc <;> exact hc

/-- A signal to come is of a connection that has just been given back. -/
theorem pending_of_trans {c : ℕ} (hI : s.Inv) (h : Pool.Trans tp s a t) (hp : t.Pending c) :
    s.Pending c ∨ ∃ st, t.place c = some st := by
  cases h with
  | client hi h | use hi _ h =>
    refine (pending_back _ hi rfl hp).elim Or.inl fun hc => Or.inl ⟨_, _, hi, ?_⟩
    exact h.pending.symm.trans hc
  | take hm hi | start hm hi | wait hm hi | giveUp hm hi | connFailed hi | connAdded hi | signal hi =>
    exact Or.inl ((pending_back _ hi rfl hp).resolve_right (by simp [ClientPc.pending?]))
  | @release i d hm hi =>
    refine (pending_back _ hi rfl hp).imp_right fun hc => ?_
    obtain rfl := Option.some.inj hc
    have hplace := (hI.holders.busy_iff d).2 ⟨i, by rw [Pool.holds_eq hi]; rfl⟩
    obtain ⟨k, hk, hin, -⟩ := Pool.place_eq_some.1 hplace
    exact ⟨.idle, Pool.place_eq_some.2
      ⟨_, Pool.get_modify_self (f := fun k => { k with status := .idle }) hk rfl, hin, rfl⟩⟩
  | @retire i d r hm hi =>
    refine (pending_back (.signal d r) hi (by cases r <;> rfl) hp).imp_right fun hc => ?_
    obtain rfl := Option.some.inj hc
    have hplace := (hI.holders.busy_iff d).2 ⟨i, by rw [Pool.holds_eq hi]; rfl⟩
    obtain ⟨k, hk, hin, -⟩ := Pool.place_eq_some.1 hplace
    exact ⟨.noop, Pool.place_eq_some.2
      ⟨_, Pool.get_modify_self hk (Pool.retireConn_conns r), hin, rfl⟩⟩
  | @bcast i d hi =>
    have hi' : s.broadcastIdle.clients[i]? = some (.bcast d) := Pool.get_broadcastIdle hi rfl
    refine Or.inl ?_
    rcases pending_back _ hi' rfl hp with hp | hc
    · exact pending_back_wake hp
    · exact ⟨i, .bcast d, hi, hc⟩
  | noopBcast | endBcast => exact Or.inl (pending_back_wake hp)
  | @flags ns ms =>
    obtain ⟨-, hc₁, -, -⟩ := Pool.setEndFlags_frame ms s
    obtain ⟨-, hc₂, -, -⟩ := Pool.setEndFlags_frame ns (Pool.setEndFlags ms s)
    exact Or.inl (Pool.pending_congr (hc₂.trans hc₁).symm hp)
  | _ => exact Or.inl (Pool.pending_congr rfl hp)

/-! ## The transport -/

/-- What `abortTpConns` has overlooked when the transport is destroyed. -/
theorem premature_freeTp (hI : l.pool.Inv) : Premature l .freeTp ↔
    (∃ (i : ℕ) (pc : ClientPc), l.pool.clients[i]? = some pc ∧ pc.engaged) ∨
      ∃ (c : ℕ) (k : Conn), l.pool.conns[c]? = some k ∧ k.pc ≠ .exited := by
  constructor
  · rintro (⟨st, hst⟩ | ⟨i, pc, hi, hpc⟩ | ⟨c, k, hk, hpc⟩)
    · obtain ⟨c, hc⟩ := List.exists_mem_of_ne_nil _ hst
      obtain ⟨k, hk, hin, -⟩ := Pool.place_eq_some.1 ((hI.lists.mem st c).1 hc)
      refine Or.inr ⟨c, k, hk, ?_⟩
      intro he
      rw [he] at hin
      cases hin
    · refine Or.inl ⟨i, pc, hi, ?_⟩
      revert hpc
      cases pc <;> simp [ClientPc.inGet, ClientPc.unannounced, ClientPc.engaged]
    · refine Or.inr ⟨c, k, hk, ?_⟩
      intro he
      rw [he] at hpc
      cases hpc
  · rintro (⟨i, pc, hi, hpc⟩ | ⟨c, k, hk, hpc⟩)
    · cases hc : pc.conn? with
      | some c =>
        have hbusy := (hI.holders.busy_iff c).2 ⟨i, by rw [Pool.holds_eq hi, hc]⟩
        exact Or.inl ⟨.busy, List.ne_nil_of_mem ((hI.lists.mem .busy c).2 hbusy)⟩
      | none =>
        refine Or.inr (Or.inl ⟨i, pc, hi, ?_⟩)
        revert hpc hc
        cases pc <;> simp [ClientPc.inGet, ClientPc.unannounced, ClientPc.engaged, ClientPc.conn?]
    · by_cases hin : k.pc.inPool
      · have hmem := (hI.lists.mem k.status c).2 (Pool.place_eq hk hin)
        exact Or.inl ⟨k.status, List.ne_nil_of_mem hmem⟩
      · refine Or.inr (Or.inr ⟨c, k, hk, ?_⟩)
        revert hpc hin
        cases k.pc <;> simp [NoopPc.inPool, NoopPc.unlocked]

/-- A client of a destroyed transport returns. -/
theorem client_of_done {i : ℕ} {pc : ClientPc} (hdone : l.pool.abort = .done)
    (h : step tp l (.pool a) = some l')
    (hout : ∀ (i : ℕ) (pc : ClientPc), l.pool.clients[i]? = some pc → pc.engaged = false)
    (hi : l'.pool.clients[i]? = some pc) : pc.engaged = false := by
  obtain ⟨hin, hs, -⟩ := step_pool h
  rcases a.client_or i with ⟨ok, rfl⟩ | ha
  · obtain ⟨pc₀, hi₀, hs⟩ := Option.bind_eq_some_iff.1 hs
    have hpc₀ := hout i pc₀ hi₀
    cases pc₀ with
    | out =>
      have hstart := hin (by simp [enters, hi₀])
      cases hdone.symm.trans hstart
    | signal c r | ret r =>
      rw [← Option.some.inj hs, Pool.setClient_clients] at hi
      obtain rfl := Option.some.inj (((Pool.get_set hi₀).trans (if_pos rfl)).symm.trans hi)
      rfl
    | _ => cases hpc₀
  · obtain ⟨f, hf, hget⟩ := Pool.beside_of_step ha hs
    rw [hget] at hi
    obtain ⟨pc₀, hi₀, rfl⟩ := Option.map_eq_some_iff.1 hi
    have hpc₀ := hout i pc₀ hi₀
    rcases hf pc₀ with h | ⟨rfl, -⟩
    · rwa [h]
    · cases hpc₀

/-- A thread of a destroyed transport has ended. -/
theorem thread_of_done {c : ℕ} {k : Conn} (hI : t.Inv) (h : s.step tp a = some t)
    (hended : ∀ (c : ℕ) (k : Conn), s.conns[c]? = some k → k.pc = .exited)
    (hout : ∀ (i : ℕ) (pc : ClientPc), t.clients[i]? = some pc → pc.engaged = false)
    (hk : t.conns[c]? = some k) : k.pc = .exited := by
  rcases a.noop_or c with ⟨ok, rfl⟩ | ha
  · obtain ⟨k₀, hk₀, h⟩ := Option.bind_eq_some_iff.1 h
    obtain ⟨k₁, hk₁, hnext⟩ := Pool.next_noopStep hk₀ h
    rw [hended c k₀ hk₀] at hnext
    cases hnext
  · rcases Pool.aside_of_step ha h with ⟨f, hf, hget⟩ | ⟨-, hadded⟩
    · rw [hget] at hk
      obtain ⟨k₀, hk₀, rfl⟩ := Option.map_eq_some_iff.1 hk
      have hpc := hended c k₀ hk₀
      rcases hf k₀ with h | ⟨hw, -⟩
      · exact h.trans hpc
      · cases hw.symm.trans hpc
    · -- a new connection would be held by a client
      obtain ⟨i, hi⟩ := (hI.holders.busy_iff c).1 (Pool.place_eq hadded rfl)
      obtain ⟨pc, hpc, hc⟩ := Pool.holds_eq_some.1 hi
      have hno := hout i pc hpc
      revert hno hc
      cases pc <;> simp [ClientPc.engaged, ClientPc.conn?]

/-! ## Sound states -/

/-- The invariant of the sound runs. -/
def Good (l : Lifetime) : Prop := Sound l ∧ (l.freed → l.pool.abort = .done)

theorem sound_init : Sound (init n) where
  listed c st := listed_of_inv (Pool.inv_init n)
  held c i := held_of_inv (Pool.inv_init n)
  signal c hd := by
    obtain ⟨k, hk, -⟩ := hd
    cases hk
  client := by
    intro h
    cases h
  thread := by
    intro h
    cases h

theorem done_of_step (h : l.pool.step tp a = some t) (hdone : l.pool.abort = .done) :
    t.abort = .done := by
  by_cases ha : a = .abort
  · subst ha
    rw [Pool.step, Pool.abortStep, hdone] at h
    cases h
  · have hw := (Pool.leaves_of_step ha h).abort
    rw [hdone] at hw
    exact hw.done

theorem good_pool (hI : l.pool.Inv) (hG : Good l) (hP : ¬ Premature l (.pool a))
    (h : step tp l (.pool a) = some l') : Good l' := by
  obtain ⟨hS, hdone⟩ := hG
  obtain ⟨-, hs, hfreed⟩ := step_pool h
  have ht := Pool.trans_of_step hs
  have hI' := Pool.inv_trans hI ht
  have hclient : l'.freed → ∀ (i : ℕ) (pc : ClientPc), l'.pool.clients[i]? = some pc →
      pc.engaged = false := by
    intro hf i pc hi
    rw [hfreed] at hf
    exact client_of_done (hdone hf) h (hS.client hf) hi
  refine ⟨⟨fun c st => listed_of_inv hI', fun c i => held_of_inv hI', ?_, hclient, ?_⟩, ?_⟩
  · intro c hd hp
    rcases pending_of_trans hI ht hp with hp | ⟨st, hst⟩
    · rcases destroyed_of_step hs hd with hd | ⟨ok, rfl, hk⟩
      · exact hS.signal c hd hp
      · exact hP ⟨hk, hp⟩
    · exact not_destroyed_of_place hst hd
  · intro hf c k hk
    exact thread_of_done hI' hs (hS.thread (hfreed ▸ hf)) (hclient hf) hk
  · intro hf
    exact done_of_step hs (hdone (hfreed ▸ hf))

theorem good_freeTp (hI : l.pool.Inv) (hG : Good l) (hP : ¬ Premature l .freeTp)
    (h : step tp l .freeTp = some l') : Good l' := by
  obtain ⟨hS, -⟩ := hG
  obtain ⟨hdone, rfl⟩ := step_freeTp h
  rw [premature_freeTp hI, not_or] at hP
  refine ⟨⟨hS.listed, hS.held, hS.signal, fun _ i pc hi => ?_, fun _ c k hk => ?_⟩, fun _ => hdone⟩
  · by_contra hne
    exact hP.1 ⟨i, pc, hi, by simpa using hne⟩
  · by_contra hne
    exact hP.2 ⟨c, k, hk, hne⟩

theorem good_of_step (hI : l.pool.Inv) (hG : Good l) (hP : ¬ Premature l x)
    (h : step tp l x = some l') : Good l' := by
  cases x with
  | pool a => exact good_pool hI hG hP h
  | freeTp => exact good_freeTp hI hG hP h

/-- A premature destruction leaves a thread behind. -/
theorem unsound_of_premature (hI : l.pool.Inv) (hP : Premature l x)
    (h : step tp l x = some l') : ¬ Sound l' := by
  intro hS
  cases x with
  | freeTp =>
    obtain ⟨-, rfl⟩ := step_freeTp h
    rcases (premature_freeTp hI).1 hP with ⟨i, pc, hi, hpc⟩ | ⟨c, k, hk, hpc⟩
    · have hno := hS.client rfl i pc hi
      rw [hpc] at hno
      cases hno
    · exact hpc (hS.thread rfl c k hk)
  | pool a =>
    cases a with
    | noop c ok =>
      obtain ⟨⟨k, hk, hpc⟩, hp⟩ := hP
      have hs := (step_pool h).2.1
      simp only [Pool.step, hk, Option.bind_some, Pool.noopStep, hpc] at hs
      have hsignal := hS.signal c
      rw [← Option.some.inj hs] at hsignal
      exact hsignal ⟨_, Pool.get_modify_self hk rfl, rfl⟩ (Pool.pending_congr rfl hp)
    | _ => exact hP

/-- In a sound state no step names what has been destroyed. -/
theorem not_misuses (hS : Sound l) : ¬ Misuses l x := by
  cases x with
  | freeTp => exact id
  | pool a =>
    rintro (⟨c, hn, hd⟩ | ⟨hf, hn⟩)
    · cases a with
      | client i ok =>
        obtain ⟨pc, hi, hpc | ⟨-, hc⟩⟩ := hn
        · rcases ClientPc.left_of_names hpc with hc | hc
          · exact hS.held c i hd ((Pool.holds_eq hi).trans hc)
          · exact hS.signal c hd ⟨i, pc, hi, hc⟩
        · exact hS.listed c .idle hd hc
      | noop d ok =>
        obtain ⟨-, k, hk, hpc⟩ := hn
        obtain ⟨k', hk', hd⟩ := hd
        obtain rfl := Option.some.inj (hk.symm.trans hk')
        revert hpc hd
        cases k.pc <;> simp [NoopPc.namesConn, NoopPc.destroyed]
      | abort =>
        rcases hn with hc | hc
        · exact hS.listed c .noop hd hc
        · exact hS.listed c .idle hd hc
      | _ => exact hn
    · cases a with
      | client i ok =>
        obtain ⟨pc, hi, hpc⟩ := hn
        have hno := hS.client hf i pc hi
        revert hno hpc
        cases pc <;> simp [ClientPc.namesTp, ClientPc.engaged]
      | noop c ok =>
        obtain ⟨k, hk, hpc⟩ := hn
        rw [hS.thread hf c k hk] at hpc
        cases hpc
      | _ => exact hn

/-- **Lifetime.**  A run without a client that enters late is sound iff nothing
    is destroyed too early in it; and then no step names what is destroyed. -/
theorem lifetime_iff {p : List (Lifetime × Act)} (h : Runs.Path (step tp) (init n) p l) :
    ((∀ t ∈ Runs.visited p l, Sound t) ↔ ∀ x ∈ p, ¬ Premature x.1 x.2) ∧
    ((∀ x ∈ p, ¬ Premature x.1 x.2) → ∀ x ∈ p, ¬ Misuses x.1 x.2) := by
  have hinv : ∀ {l : Lifetime}, Runs.Reach (step tp) (init n) l → l.pool.Inv :=
    fun hl => Pool.inv_of_reach (reach_pool hl)
  have hiff : (∀ t ∈ Runs.visited p l, Sound t) ↔ ∀ x ∈ p, ¬ Premature x.1 x.2 := by
    refine h.visited_iff (J := Good) (C := fun l x => ¬ Premature l x)
      ⟨sound_init, fun hf => by cases hf⟩ (fun _ _ hG => hG.1) ?_ ?_
    · intro l x l' hl hG hP hx
      exact good_of_step (hinv hl) hG hP hx
    · intro l x l' hl hG hP hx
      exact unsound_of_premature (hinv hl) (Classical.not_not.1 hP) hx
  refine ⟨hiff, fun hP x hx => ?_⟩
  refine not_misuses (hiff.2 hP x.1 ?_)
  exact List.mem_append_left _ (List.mem_map_of_mem hx)

end

/-- `abortTpConns` starts while a client sends a mail; the client gives its
    connection back, the connection ends, and the transport is destroyed. -/
def sentThenFreed : List Act :=
  List.replicate 5 (.pool (.client 0 true)) ++ List.replicate 2 (.pool .abort) ++
    List.replicate 7 (.pool (.client 0 true)) ++ .pool .abort ::
    List.replicate 5 (.pool (.noop 0 true)) ++ [.pool .abort, .freeTp]

/-- The pool at the end. -/
def poolEnded : Pool :=
  ⟨none, ⟨[], 0⟩, ⟨[], 0⟩, ⟨[], 0⟩, 0, 1, 1, [⟨.noop, 1, 0, true, false, .exited⟩], [.out], .done⟩

theorem not_premature_ended : ¬ Premature ⟨poolEnded, false⟩ .freeTp := by
  rintro (⟨st, hst⟩ | ⟨i, pc, hi, hpc⟩ | ⟨c, k, hk, hpc⟩)
  · cases st <;> exact hst rfl
  · obtain rfl := List.mem_singleton.1 (List.mem_of_getElem? hi)
    rcases hpc with hpc | hpc <;> cases hpc
  · obtain rfl := List.mem_singleton.1 (List.mem_of_getElem? hk)
    cases hpc

/-- Nothing that is destroyed on the way is named any more. -/
theorem lifetime_iff_sent : ∃ p, Runs.Path (step tpPlain) (init 1) p ⟨poolEnded, true⟩ ∧
    p.map Prod.snd = sentThenFreed ∧ Destroyed poolEnded 0 ∧
    (∀ t ∈ Runs.visited p ⟨poolEnded, true⟩, Sound t) ∧ ∀ x ∈ p, ¬ Misuses x.1 x.2 := by
  have hp := Runs.Path.trace (show Runs.exec (step tpPlain) (init 1) sentThenFreed =
    some ⟨poolEnded, true⟩ from rfl)
  have hsignal : ∀ x ∈ Runs.trace (step tpPlain) (init 1) sentThenFreed,
      (∃ pc ∈ x.1.pool.clients, pc.pending?.isSome) → x.2 = .pool (.client 0 true) := by
    decide +kernel
  have hfree : ∀ x ∈ Runs.trace (step tpPlain) (init 1) sentThenFreed,
      x.2 = .freeTp → x.1 = ⟨poolEnded, false⟩ := by
    decide +kernel
  have hC : ∀ x ∈ Runs.trace (step tpPlain) (init 1) sentThenFreed, ¬ Premature x.1 x.2 := by
    rintro ⟨l, x⟩ hx
    cases x with
    | freeTp =>
      obtain rfl : l = _ := hfree _ hx rfl
      exact not_premature_ended
    | pool a =>
      cases a with
      | noop c ok =>
        rintro ⟨-, i, pc, hi, hpc⟩
        cases hsignal _ hx ⟨pc, List.mem_of_getElem? hi, by rw [hpc]; rfl⟩
      | _ => exact id
  have hall := lifetime_iff hp
  exact ⟨_, hp, by decide +kernel, ⟨_, rfl, rfl⟩, hall.1.2 hC, hall.2 hC⟩

/-- The client fails, and its connection goes to `endConn` (9 steps). -/
def failed : List Act :=
  List.replicate 5 (.pool (.client 0 true)) ++
    [.pool (.client 0 false), .pool (.client 0 true), .pool (.noop 0 true), .pool (.noop 0 true)]

/-- **Late signals.**  A client signals a connection that its thread has
    destroyed meanwhile; and the thread of a connection signals `endCond` of a
    transport that has been destroyed meanwhile. -/
theorem lifetime_late :
    (∃ p l, Runs.Path (step tpPlain) (init 1) p l ∧
      ∃ x ∈ p, ∃ c, x.2 = .pool (.client 0 true) ∧ NamesConn x.1.pool (.client 0 true) c ∧
        Destroyed x.1.pool c) ∧
    (∃ p l, Runs.Path (step tpPlain) (init 1) p l ∧
      ∃ x ∈ p, x.2 = .pool (.noop 0 true) ∧ x.1.freed ∧ NamesTp x.1.pool (.noop 0 true)) := by
  constructor
  · have h : Runs.exec (step tpPlain) (init 1) (failed ++ [.pool (.noop 0 true)]) =
        some ⟨⟨none, ⟨[], 0⟩, ⟨[], 0⟩, ⟨[], 0⟩, 0, 0, 0,
          [⟨.noop, 0, 0, true, false, .endSignal⟩], [.signal 0 false], .out⟩, false⟩ := rfl
    refine ⟨_, _, (Runs.Path.trace h).snoc (a := .pool (.client 0 true)) rfl, _,
      List.mem_append_right _ (List.mem_singleton_self _), 0, rfl, ?_, ?_⟩
    · exact ⟨.signal 0 false, rfl, Or.inl rfl⟩
    · exact ⟨_, rfl, rfl⟩
  · have h : Runs.exec (step tpPlain) (init 1) (failed ++ [.pool (.client 0 true), .pool .abort,
          .pool .abort, .freeTp, .pool (.noop 0 true)]) =
        some ⟨⟨none, ⟨[], 0⟩, ⟨[], 0⟩, ⟨[], 0⟩, 0, 0, 0,
          [⟨.noop, 0, 0, true, false, .endSignal⟩], [.ret false], .done⟩, true⟩ := rfl
    refine ⟨_, _, (Runs.Path.trace h).snoc (a := .pool (.noop 0 true)) rfl, _,
      List.mem_append_right _ (List.mem_singleton_self _), rfl, rfl, ?_⟩
    exact ⟨_, rfl, rfl⟩

end Lifetime

end SmtpProxy
