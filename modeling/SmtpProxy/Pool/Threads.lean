/-
  What a step of the pool leaves of the threads that do not take it: a client
  that does not move can be woken or time out (`Beside`), so can the thread of
  a connection be woken (`Aside`), and `abortTpConns` (`Leaves`).  And what
  `abortTpConns` has seen when it stops waiting for the clients.
-/
import SmtpProxy.Pool.Invariant

namespace SmtpProxy

/-- In `tpSendMail`, up to its last signal. -/
def ClientPc.inTp : ClientPc → Bool
  | .out | .ret _ => false
  | _ => true

/-- Where a `connNOOP` thread can go on. -/
def NoopPc.next : NoopPc → List NoopPc
  | .top | .woken => [.wait, .count, .closeHeld]
  | .count => [.noop]
  | .noop => [.close, .relock]
  | .relock => [.closeHeld, .bcast]
  | .bcast => [.sleep]
  | .sleep => [.top]
  | .close => [.delete]
  | .closeHeld | .delete => [.destroy]
  | .destroy => [.endSignal]
  | .endSignal => [.endBcast]
  | .endBcast => [.exited]
  | .wait | .exited => []

/-- Whose step it is. -/
theorem Action.client_or (a : Action) (i : ℕ) :
    (∃ ok, a = .client i ok) ∨ ∀ ok, a ≠ .client i ok := by
  rw [← not_exists]
  exact Classical.em _

theorem Action.noop_or (a : Action) (c : ℕ) : (∃ ok, a = .noop c ok) ∨ ∀ ok, a ≠ .noop c ok := by
  rw [← not_exists]
  exact Classical.em _

/-- `abortTpConns` has stopped waiting for the clients. -/
def AbortPc.drained : AbortPc → Bool
  | .waitEnd | .wokenEnd | .done => true
  | _ => false

/-- A wait of `abortTpConns` ends, if anything. -/
def AbortPc.Woken (pc pc' : AbortPc) : Prop :=
  pc' = pc ∨ pc = .waitIdle ∧ pc' = .wokenIdle ∨ pc = .waitEnd ∧ pc' = .wokenEnd

theorem AbortPc.Woken.drained {pc pc' : AbortPc} (h : pc.Woken pc') (hd : pc'.drained) :
    pc.drained := by
  rcases h with rfl | ⟨rfl, rfl⟩ | ⟨rfl, rfl⟩
  · exact hd
  · exact hd
  · rfl

theorem AbortPc.Woken.out {pc : AbortPc} (h : AbortPc.out.Woken pc) : pc = .out := by
  rcases h with h | ⟨h, -⟩ | ⟨h, -⟩
  · exact h
  · cases h
  · cases h

theorem AbortPc.Woken.done {pc : AbortPc} (h : AbortPc.done.Woken pc) : pc = .done := by
  rcases h with h | ⟨h, -⟩ | ⟨h, -⟩
  · exact h
  · cases h
  · cases h

/-- The connections differ in `endFlag` and `sockOpen` only, or their thread is woken. -/
structure Conn.Alike (k k' : Conn) : Prop where
  status : k'.status = k.status
  sendCount : k'.sendCount = k.sendCount
  noopCount : k'.noopCount = k.noopCount
  pc : k'.pc = k.pc ∨ k.pc = .wait ∧ k'.pc = .woken

theorem Conn.Alike.refl (k : Conn) : k.Alike k := ⟨rfl, rfl, rfl, Or.inl rfl⟩

theorem inTp_wake (pc : ClientPc) : pc.wake.inTp = pc.inTp := by cases pc <;> rfl

namespace Pool

/-- The client `i` is in `tpSendMail` with this transport. -/
def inTp (s : Pool) (i : ℕ) : Bool := (s.clients[i]?.map ClientPc.inTp).getD false

/-- `abortTpConns` stops waiting for the clients when it gets the lock. -/
def Drains (s : Pool) : Prop :=
  (s.abort = .start ∨ s.abort = .wokenIdle) ∧ s.mtx = none ∧ s.busyConns.count = 0 ∧ ¬ 0 < s.waiting

/-- What the action `a` leaves of `abortTpConns` and of the other clients. -/
structure Leaves (a : Action) (s t : Pool) : Prop where
  client : ∀ j, (∀ ok, a ≠ .client j ok) → t.inTp j = s.inTp j
  abort : s.abort.Woken t.abort

/-- The client `i` as a step leaves it that is not its own: it stays where it
    is, or its wait ends. -/
def Beside (s t : Pool) (i : ℕ) : Prop :=
  ∃ f : ClientPc → ClientPc, (∀ pc, f pc = pc ∨ pc = .wait ∧ (f pc = .woken ∨ f pc = .expired)) ∧
    t.clients[i]? = s.clients[i]?.map f

/-- The client `i` as a step leaves it that is neither its own nor the end of
    its wait: as it was, or as after a broadcast. -/
def Passed (s t : Pool) (i : ℕ) : Prop :=
  t.clients[i]? = s.clients[i]? ∨ t.clients[i]? = s.broadcastIdle.clients[i]?

/-- The connection `c` as a step leaves it that its thread does not take: the
    thread stays where it is or is woken, or the connection is new. -/
def Aside (s t : Pool) (c : ℕ) : Prop :=
  (∃ f : Conn → Conn, (∀ k, (f k).pc = k.pc ∨ k.pc = .wait ∧ (f k).pc = .woken) ∧
    t.conns[c]? = s.conns[c]?.map f) ∨
  s.conns[c]? = none ∧ t.conns[c]? = some Conn.added

/-- The connection `c` as a step leaves it that does not use it. -/
def Undisturbed (s t : Pool) (c : ℕ) : Prop :=
  ∃ f : Conn → Conn, (∀ k : Conn, k.Alike (f k)) ∧ t.conns[c]? = s.conns[c]?.map f

section
variable {tp : Tp} {s t u : Pool} {a : Action}

theorem inTp_of_get {i : ℕ} {pc : ClientPc} (h : s.clients[i]? = some pc) : s.inTp i = pc.inTp := by
  rw [inTp, h]; rfl

theorem inTp_congr {j : ℕ} (h : t.clients[j]? = s.clients[j]?) : t.inTp j = s.inTp j := by
  rw [inTp, inTp, h]

theorem inTp_init (n i : ℕ) : (init n).inTp i = false := by
  cases hi : (init n).clients[i]? with
  | none => rw [inTp, hi]; rfl
  | some pc =>
    obtain rfl := client_init hi
    exact inTp_of_get hi

theorem Leaves.trans (h₁ : Leaves a s t) (h₂ : t.clients = u.clients) (h₃ : t.abort = u.abort) :
    Leaves a s u :=
  ⟨fun j hj => (inTp_congr (by rw [h₂])).trans (h₁.client j hj), h₃ ▸ h₁.abort⟩

theorem Leaves.same (hc : t.clients = s.clients) (ha : t.abort = s.abort) : Leaves a s t :=
  ⟨fun _ _ => inTp_congr (by rw [hc]), Or.inl ha⟩

theorem Leaves.set {i : ℕ} {ok : Bool} {pc : ClientPc} (h : Leaves (.client i ok) s t) :
    Leaves (.client i ok) s (t.setClient i pc) := by
  refine ⟨fun j hj => Eq.trans (inTp_congr ?_) (h.client j hj), h.abort⟩
  rw [setClient_clients, List.getElem?_set_ne fun he => hj ok (by rw [he])]

theorem Leaves.broadcastIdle : Leaves a s s.broadcastIdle := by
  refine ⟨fun j _ => ?_, ?_⟩
  · unfold inTp
    rw [broadcastIdle_clients, List.getElem?_map]
    cases s.clients[j]? with
    | none => rfl
    | some pc => exact inTp_wake pc
  · by_cases h : s.abort = .waitIdle
    · exact Or.inr (Or.inl ⟨h, if_pos h⟩)
    · exact Or.inl (if_neg h)

theorem Leaves.signalEnd : Leaves a s s.signalEnd := by
  refine ⟨fun j _ => rfl, ?_⟩
  by_cases h : s.abort = .waitEnd
  · exact Or.inr (Or.inr ⟨h, if_pos h⟩)
  · exact Or.inl (if_neg h)

theorem leaves_clientStep {i : ℕ} {ok : Bool} {pc : ClientPc}
    (h : s.clientStep tp i ok pc = some t) : Leaves (.client i ok) s t := by
  cases pc with
  | call | woken =>
    obtain ⟨-, hg⟩ := gets_of_step (by simp) h
    cases hg with
    | take => exact Leaves.set (.same (by rw [move_clients]) (by rw [move_abort]))
    | start | wait => exact Leaves.set (.same rfl rfl)
  | wait => cases h
  | out | got c isNew | rset c | mail c | sent c | pause c | signal c r | ret r =>
    obtain rfl := Option.some.inj h
    exact Leaves.set (.same rfl rfl)
  | connect | setup =>
    obtain rfl := Option.some.inj h
    split <;> exact Leaves.set (.same rfl rfl)
  | limit c =>
    obtain ⟨k, -, rfl⟩ := Option.map_eq_some_iff.1 h
    exact Leaves.set (.same rfl rfl)
  | expired =>
    obtain ⟨-, rfl⟩ := locked_eq_some.1 h
    exact Leaves.set (.same rfl rfl)
  | release c =>
    obtain ⟨-, rfl⟩ := locked_eq_some.1 h
    exact Leaves.set (.same rfl rfl)
  | retire c r =>
    obtain ⟨-, rfl⟩ := locked_eq_some.1 h
    cases r <;> exact Leaves.set (.same rfl rfl)
  | bcast c =>
    obtain rfl := Option.some.inj h
    exact Leaves.broadcastIdle.set

theorem leaves_noopStep {c : ℕ} {ok : Bool} {k : Conn} (h : s.noopStep tp c ok k = some t) :
    Leaves a s t := by
  unfold noopStep at h
  cases hpc : k.pc with
  | top | woken =>
    simp only [hpc] at h
    obtain ⟨-, rfl⟩ := locked_eq_some.1 h
    unfold noopTop endConnLocked
    split
    · exact .same rfl rfl
    · dsimp only
      split <;> split <;> exact .same rfl rfl
  | wait | exited => simp [hpc] at h
  | count | noop | sleep | closeHeld | close | destroy =>
    simp only [hpc] at h
    obtain rfl := Option.some.inj h
    exact .same rfl rfl
  | relock =>
    simp only [hpc] at h
    obtain ⟨-, rfl⟩ := locked_eq_some.1 h
    unfold noopBack endConnLocked
    split <;> exact .same rfl rfl
  | bcast | endBcast =>
    simp only [hpc] at h
    obtain rfl := Option.some.inj h
    exact Leaves.broadcastIdle.trans rfl rfl
  | delete =>
    simp only [hpc] at h
    obtain ⟨-, rfl⟩ := locked_eq_some.1 h
    exact .same rfl rfl
  | endSignal =>
    simp only [hpc] at h
    obtain rfl := Option.some.inj h
    exact Leaves.signalEnd.trans rfl rfl

/-- **What a step leaves of the threads that do not take it.** -/
theorem leaves_of_step (ha : a ≠ .abort) (h : step tp s a = some t) : Leaves a s t := by
  cases a with
  | client i ok =>
    obtain ⟨pc, -, h⟩ := Option.bind_eq_some_iff.1 h
    exact leaves_clientStep h
  | timeout i | spuriousClient i =>
    simp only [step] at h
    split at h
    · rename_i hi
      obtain rfl := Option.some.inj h
      refine ⟨fun j _ => ?_, Or.inl rfl⟩
      by_cases hji : j = i
      · subst hji
        rw [inTp_of_get hi, inTp_of_get ((get_set hi).trans (if_pos rfl))]
        rfl
      · exact inTp_congr ((get_set hi).trans (if_neg hji))
    · cases h
  | noop c ok =>
    obtain ⟨k, -, h⟩ := Option.bind_eq_some_iff.1 h
    exact leaves_noopStep h
  | abort => exact absurd rfl ha
  | spuriousNoop c =>
    obtain ⟨k, -, h⟩ := Option.bind_eq_some_iff.1 h
    split at h
    · obtain rfl := Option.some.inj h
      exact .same rfl rfl
    · cases h
  | spuriousAbort =>
    simp only [step, abortSpurious] at h
    split at h
    · rename_i hpc
      obtain rfl := Option.some.inj h
      exact ⟨fun _ _ => rfl, Or.inr (Or.inl ⟨hpc, rfl⟩)⟩
    · rename_i hpc
      obtain rfl := Option.some.inj h
      exact ⟨fun _ _ => rfl, Or.inr (Or.inr ⟨hpc, rfl⟩)⟩
    · cases h
  | resetToday =>
    obtain ⟨-, rfl⟩ := locked_eq_some.1 h
    exact .same rfl rfl

/-! ## Other clients -/

theorem Passed.same {i : ℕ} (h : t.clients[i]? = s.clients[i]?) : Passed s t i := Or.inl h

theorem Passed.set {i j : ℕ} {pc : ClientPc} (hij : i ≠ j) (h : t.clients = s.clients.set j pc) :
    Passed s t i := .same (by rw [h, List.getElem?_set_ne hij.symm])

theorem Passed.wake {i : ℕ} (h : t.clients[i]? = s.broadcastIdle.clients[i]?) : Passed s t i :=
  Or.inr h

theorem Passed.beside {i : ℕ} (h : Passed s t i) : Beside s t i := by
  rcases h with h | h
  · exact ⟨id, fun _ => Or.inl rfl, by rw [h, Option.map_id]; rfl⟩
  · refine ⟨ClientPc.wake, fun pc => ?_, by rw [h, broadcastIdle_clients, List.getElem?_map]⟩
    cases pc with
    | wait => exact Or.inr ⟨rfl, Or.inl rfl⟩
    | _ => exact Or.inl rfl

theorem passed_clientStep {i j : ℕ} {ok : Bool} {pc : ClientPc} (hij : i ≠ j)
    (h : s.clientStep tp j ok pc = some t) : Passed s t i := by
  cases pc with
  | call | woken =>
    obtain ⟨-, hg⟩ := gets_of_step (by simp) h
    cases hg with
    | take | start | wait => exact .set hij rfl
  | wait => cases h
  | out | got d isNew | rset d | mail d | sent d | pause d | signal d r | ret r =>
    obtain rfl := Option.some.inj h
    exact .set hij rfl
  | connect | setup =>
    obtain rfl := Option.some.inj h
    cases ok <;> exact .set hij rfl
  | limit d =>
    obtain ⟨k, -, rfl⟩ := Option.map_eq_some_iff.1 h
    exact .set hij rfl
  | expired | release d =>
    obtain ⟨-, rfl⟩ := locked_eq_some.1 h
    exact .set hij rfl
  | retire d r =>
    obtain ⟨-, rfl⟩ := locked_eq_some.1 h
    cases r <;> exact .set hij rfl
  | bcast d =>
    obtain rfl := Option.some.inj h
    exact .wake (by rw [setClient_clients, List.getElem?_set_ne hij.symm])

theorem passed_noopStep {i c : ℕ} {ok : Bool} {k : Conn} (h : s.noopStep tp c ok k = some t) :
    Passed s t i := by
  unfold noopStep at h
  cases hpc : k.pc with
  | top | woken =>
    simp only [hpc] at h
    obtain ⟨-, rfl⟩ := locked_eq_some.1 h
    unfold noopTop endConnLocked
    split
    · exact .same rfl
    · dsimp only
      split <;> split <;> exact .same rfl
  | wait | exited => simp [hpc] at h
  | count | noop | sleep | closeHeld | close | destroy | endSignal =>
    simp only [hpc] at h
    obtain rfl := Option.some.inj h
    exact .same rfl
  | relock =>
    simp only [hpc] at h
    obtain ⟨-, rfl⟩ := locked_eq_some.1 h
    unfold noopBack endConnLocked
    split <;> exact .same rfl
  | delete =>
    simp only [hpc] at h
    obtain ⟨-, rfl⟩ := locked_eq_some.1 h
    exact .same rfl
  | bcast | endBcast =>
    simp only [hpc] at h
    obtain rfl := Option.some.inj h
    exact .wake rfl

/-! ## The connections of other threads -/

theorem Aside.same {c : ℕ} (h : t.conns[c]? = s.conns[c]?) : Aside s t c :=
  Or.inl ⟨id, fun _ => Or.inl rfl, by rw [h, Option.map_id]; rfl⟩

theorem Aside.modify {c d : ℕ} {f : Conn → Conn}
    (hf : ∀ k, (f k).pc = k.pc ∨ k.pc = .wait ∧ (f k).pc = .woken)
    (h : t.conns = s.conns.modify d f) : Aside s t c := by
  by_cases hd : c = d
  · exact Or.inl ⟨f, hf, by rw [h, get_modify, if_pos hd]⟩
  · exact .same (by rw [h, get_modify, if_neg hd])

theorem Undisturbed.same {c : ℕ} (h : t.conns[c]? = s.conns[c]?) : Undisturbed s t c :=
  ⟨id, Conn.Alike.refl, by rw [h, Option.map_id]; rfl⟩

/-- A thread changes its own connection only. -/
theorem Undisturbed.own {c d : ℕ} {f : Conn → Conn} (hc : c ≠ d) (h : t.conns = s.conns.modify d f) :
    Undisturbed s t c := .same (by rw [h, get_modify, if_neg hc])

/-- The thread of a connection is woken, at most. -/
theorem Undisturbed.wake {c : ℕ}
    (h : t.conns[c]? = s.conns[c]?.map fun k => { k with pc := if k.pc = .wait then .woken else k.pc }) :
    Undisturbed s t c := by
  refine ⟨fun k => { k with pc := if k.pc = .wait then .woken else k.pc }, fun k => ?_, h⟩
  by_cases hw : k.pc = .wait
  · exact ⟨rfl, rfl, rfl, Or.inr ⟨hw, if_pos hw⟩⟩
  · exact ⟨rfl, rfl, rfl, Or.inl (if_neg hw)⟩

theorem Undisturbed.aside {c : ℕ} (h : Undisturbed s t c) : Aside s t c := by
  obtain ⟨f, hf, hget⟩ := h
  exact Or.inl ⟨f, fun k => (hf k).pc, hget⟩

theorem aside_clientStep {i c : ℕ} {ok : Bool} {pc : ClientPc}
    (h : s.clientStep tp i ok pc = some t) : Aside s t c := by
  cases pc with
  | call | woken =>
    obtain ⟨-, hg⟩ := gets_of_step (by simp) h
    cases hg with
    | take => exact .modify (f := fun k => { k with status := .busy }) (fun _ => Or.inl rfl) rfl
    | start | wait => exact .same rfl
  | wait => cases h
  | out | connect | rset d | mail d | pause d | bcast d | ret r =>
    obtain rfl := Option.some.inj h
    first
      | exact .same rfl
      | cases ok <;> exact .same rfl
  | setup =>
    obtain rfl := Option.some.inj h
    cases ok with
    | false => exact .same rfl
    | true =>
      have hconns : (s.connAdded i).conns = s.conns ++ [Conn.added] := rfl
      by_cases hc : c = s.conns.length
      · refine Or.inr ⟨List.getElem?_eq_none (by omega), ?_⟩
        rw [if_pos rfl, hconns, get_added, if_pos hc]
      · exact .same (by rw [if_pos rfl, hconns, get_added, if_neg hc])
  | got d isNew | sent d =>
    obtain rfl := Option.some.inj h
    exact .modify (fun _ => by exact Or.inl rfl) rfl
  | limit d =>
    obtain ⟨k, -, rfl⟩ := Option.map_eq_some_iff.1 h
    exact .same rfl
  | expired =>
    obtain ⟨-, rfl⟩ := locked_eq_some.1 h
    exact .same rfl
  | release d =>
    obtain ⟨-, rfl⟩ := locked_eq_some.1 h
    exact .modify (f := fun k => { k with status := .idle }) (fun _ => Or.inl rfl) rfl
  | retire d r =>
    obtain ⟨-, rfl⟩ := locked_eq_some.1 h
    exact .modify (fun _ => by exact Or.inl rfl) (retireConn_conns r)
  | signal d r =>
    obtain rfl := Option.some.inj h
    refine .modify (fun k => ?_) (s.updConn_conns d _)
    by_cases hw : k.pc = .wait
    · exact Or.inr ⟨hw, if_pos hw⟩
    · exact Or.inl (if_neg hw)

theorem undisturbed_noopStep {c d : ℕ} {ok : Bool} {k : Conn} (hc : c ≠ d)
    (h : s.noopStep tp d ok k = some t) : Undisturbed s t c := by
  unfold noopStep at h
  cases hpc : k.pc with
  | top | woken =>
    simp only [hpc] at h
    obtain ⟨-, rfl⟩ := locked_eq_some.1 h
    unfold noopTop
    split
    · exact .own hc rfl
    · dsimp only
      split <;> split
      · exact .own hc endConnLocked_move_conns
      · exact .own (f := fun k => { k with pc := .closeHeld }) hc rfl
      · exact .own hc (setPc_move_conns ..)
      · exact .own (f := fun k => { k with pc := .count }) hc rfl
  | wait | exited => simp [hpc] at h
  | count | noop | sleep | close | destroy | endSignal | bcast | endBcast =>
    simp only [hpc] at h
    obtain rfl := Option.some.inj h
    exact .own hc rfl
  | relock =>
    simp only [hpc] at h
    obtain ⟨-, rfl⟩ := locked_eq_some.1 h
    unfold noopBack
    split
    · exact .own (f := fun k => { k with pc := .closeHeld }) hc rfl
    · exact .own hc (setPc_move_conns ..)
  | closeHeld =>
    simp only [hpc] at h
    obtain rfl := Option.some.inj h
    exact .own hc closeHeld_conns
  | delete =>
    simp only [hpc] at h
    obtain ⟨-, rfl⟩ := locked_eq_some.1 h
    exact .own (f := fun k => { k with pc := .destroy }) hc rfl

/-- **Where the thread that takes the step goes on.** -/
theorem next_noopStep {c : ℕ} {ok : Bool} {k : Conn} (hk : s.conns[c]? = some k)
    (h : s.noopStep tp c ok k = some t) : ∃ k', t.conns[c]? = some k' ∧ k'.pc ∈ k.pc.next := by
  unfold noopStep at h
  cases hpc : k.pc with
  | top | woken =>
    simp only [hpc] at h
    obtain ⟨-, rfl⟩ := locked_eq_some.1 h
    unfold noopTop
    split
    · exact ⟨_, get_modify_self hk rfl, by simp [NoopPc.next]⟩
    · dsimp only
      split <;> split
      · exact ⟨_, get_modify_self hk endConnLocked_move_conns, by simp [NoopPc.next]⟩
      · exact ⟨_, get_modify_self (f := fun k => { k with pc := .closeHeld }) hk rfl,
          by simp [NoopPc.next]⟩
      · exact ⟨_, get_modify_self hk (setPc_move_conns ..), by simp [NoopPc.next]⟩
      · exact ⟨_, get_modify_self (f := fun k => { k with pc := .count }) hk rfl,
          by simp [NoopPc.next]⟩
  | wait | exited => simp [hpc] at h
  | count | sleep | close | destroy | endSignal | bcast | endBcast =>
    simp only [hpc] at h
    obtain rfl := Option.some.inj h
    exact ⟨_, get_modify_self hk rfl, by simp [NoopPc.next]⟩
  | noop =>
    simp only [hpc] at h
    obtain rfl := Option.some.inj h
    refine ⟨_, get_modify_self hk rfl, ?_⟩
    dsimp only
    split <;> simp [NoopPc.next]
  | relock =>
    simp only [hpc] at h
    obtain ⟨-, rfl⟩ := locked_eq_some.1 h
    unfold noopBack
    split
    · exact ⟨_, get_modify_self (f := fun k => { k with pc := .closeHeld }) hk rfl,
        by simp [NoopPc.next]⟩
    · exact ⟨_, get_modify_self hk (setPc_move_conns ..), by simp [NoopPc.next]⟩
  | closeHeld =>
    simp only [hpc] at h
    obtain rfl := Option.some.inj h
    exact ⟨_, get_modify_self hk closeHeld_conns, by simp [NoopPc.next]⟩
  | delete =>
    simp only [hpc] at h
    obtain ⟨-, rfl⟩ := locked_eq_some.1 h
    exact ⟨_, get_modify_self (f := fun k => { k with pc := .destroy }) hk rfl,
      by simp [NoopPc.next]⟩

theorem undisturbed_abortStep {c : ℕ} (h : s.abortStep = some t) : Undisturbed s t c := by
  have loop : s.locked s.abortLoop = some t → Undisturbed s t c := by
    intro h
    obtain ⟨-, rfl⟩ := locked_eq_some.1 h
    have flags : ∀ ns ms : List ℕ, Undisturbed s (setEndFlags ns (setEndFlags ms s)).endLoop c := by
      intro ns ms
      have hget := (get_setEndFlags ns (setEndFlags ms s) c).trans
        (congrArg _ (get_setEndFlags ms s c))
      rw [Option.map_map] at hget
      refine ⟨_, fun k => ?_, hget⟩
      dsimp only [Function.comp]
      split <;> split <;> exact ⟨rfl, rfl, rfl, Or.inl rfl⟩
    unfold abortLoop
    split
    · exact .same rfl
    · dsimp only
      split <;> split
      · exact flags _ _
      · exact flags [] _
      · exact flags _ []
      · exact flags [] []
  unfold abortStep at h
  split at h
  · obtain rfl := Option.some.inj h
    exact .same rfl
  · exact loop h
  · exact loop h
  · obtain ⟨-, rfl⟩ := locked_eq_some.1 h
    exact .same rfl
  all_goals cases h

/-- **What a step leaves of the connections, if neither a client nor the thread of
    the connection takes it.** -/
theorem undisturbed_of_step {c : ℕ} (hi : ∀ i ok, a ≠ .client i ok) (hc : ∀ ok, a ≠ .noop c ok)
    (h : step tp s a = some t) : Undisturbed s t c := by
  cases a with
  | client i ok => exact absurd rfl (hi i ok)
  | timeout i | spuriousClient i =>
    simp only [step] at h
    split at h
    · obtain rfl := Option.some.inj h
      exact .same rfl
    · cases h
  | noop d ok =>
    obtain ⟨k, -, h⟩ := Option.bind_eq_some_iff.1 h
    exact undisturbed_noopStep (by rintro rfl; exact hc ok rfl) h
  | abort => exact undisturbed_abortStep h
  | spuriousNoop d =>
    obtain ⟨k, hk, h⟩ := Option.bind_eq_some_iff.1 h
    split at h
    · rename_i hpc
      obtain rfl := Option.some.inj h
      by_cases hd : c = d
      · subst hd
        refine .wake ?_
        rw [setPc, updConn_conns, get_modify, if_pos rfl, hk, Option.map_some, Option.map_some,
          hpc, if_pos rfl]
      · exact .same (by rw [setPc, updConn_conns, get_modify, if_neg hd])
    · cases h
  | spuriousAbort =>
    simp only [step, abortSpurious] at h
    split at h
    · obtain rfl := Option.some.inj h
      exact .same rfl
    · obtain rfl := Option.some.inj h
      exact .same rfl
    · cases h
  | resetToday =>
    obtain ⟨-, rfl⟩ := locked_eq_some.1 h
    exact .same rfl

/-- A client leaves the connections alone that it neither holds nor gets. -/
theorem undisturbed_clientStep {i c : ℕ} {ok : Bool} {pc : ClientPc} (hi : s.clients[i]? = some pc)
    (hc : pc.conn? ≠ some c) (hgot : ∀ isNew, t.clients[i]? ≠ some (.got c isNew))
    (h : s.clientStep tp i ok pc = some t) : Undisturbed s t c := by
  cases pc with
  | call | woken =>
    obtain ⟨-, hg⟩ := gets_of_step (by simp) h
    cases hg with
    | @take d =>
      refine .own (f := fun k => { k with status := .busy }) (d := d) ?_ rfl
      rintro rfl
      exact hgot false ((get_set hi).trans (if_pos rfl))
    | start | wait => exact .same rfl
  | wait => cases h
  | out | connect | bcast d | ret r =>
    obtain rfl := Option.some.inj h
    first
      | exact .same rfl
      | cases ok <;> exact .same rfl
  | setup =>
    obtain rfl := Option.some.inj h
    cases ok with
    | false => exact .same rfl
    | true =>
      have hconns : (s.connAdded i).conns = s.conns ++ [Conn.added] := rfl
      have hne : c ≠ s.conns.length := by
        rintro rfl
        exact hgot true ((get_set hi).trans (if_pos rfl))
      exact .same (by rw [if_pos rfl, hconns, get_added, if_neg hne])
  | rset d | mail d =>
    obtain rfl := Option.some.inj h
    exact .same rfl
  | pause d =>
    obtain rfl := Option.some.inj h
    exact .same rfl
  | got d isNew | sent d =>
    obtain rfl := Option.some.inj h
    exact .own (by rintro rfl; exact hc rfl) rfl
  | limit d =>
    obtain ⟨k, -, rfl⟩ := Option.map_eq_some_iff.1 h
    exact .same rfl
  | expired =>
    obtain ⟨-, rfl⟩ := locked_eq_some.1 h
    exact .same rfl
  | release d =>
    obtain ⟨-, rfl⟩ := locked_eq_some.1 h
    exact .own (f := fun k => { k with status := .idle }) (d := d) (by rintro rfl; exact hc rfl) rfl
  | retire d r =>
    obtain ⟨-, rfl⟩ := locked_eq_some.1 h
    exact .own (by rintro rfl; exact hc rfl) (retireConn_conns r)
  | signal d r =>
    obtain rfl := Option.some.inj h
    by_cases hd : c = d
    · subst hd
      exact .wake (by rw [setClient_conns, signalConn, updConn_conns, get_modify, if_pos rfl])
    · exact .own hd (s.updConn_conns d _)

/-- **What a step leaves of the connections whose threads do not take it.** -/
theorem aside_of_step {c : ℕ} (hc : ∀ ok, a ≠ .noop c ok) (h : step tp s a = some t) :
    Aside s t c := by
  by_cases hi : ∃ i ok, a = .client i ok
  · obtain ⟨i, ok, rfl⟩ := hi
    obtain ⟨pc, -, h⟩ := Option.bind_eq_some_iff.1 h
    exact aside_clientStep h
  · exact (undisturbed_of_step (fun i ok he => hi ⟨i, ok, he⟩) hc h).aside

/-- A client that returns from `tpSendMail` does not come back in the same step. -/
theorem inTp_of_ret {i : ℕ} {ok : Bool} (h : step tp s (.client i ok) = some t)
    (hin : s.inTp i = false) (hout : s.clients[i]? ≠ some .out) : t.inTp i = false := by
  obtain ⟨pc, hi, h⟩ := Option.bind_eq_some_iff.1 h
  rw [inTp_of_get hi] at hin
  cases pc with
  | out => exact absurd hi hout
  | ret r =>
    obtain rfl := Option.some.inj h
    have hi' : (s.setClient i .out).clients[i]? = some .out := (get_set hi).trans (if_pos rfl)
    exact inTp_of_get hi'
  | _ => cases hin

/-- `abortTpConns` moves no client, and stops waiting for them in `Drains` only. -/
theorem abortStep_frame (h : s.abortStep = some t) :
    t.clients = s.clients ∧ (t.abort.drained → s.abort.drained ∨ s.Drains) := by
  have loop : (s.abort = .start ∨ s.abort = .wokenIdle) → s.locked s.abortLoop = some t →
      t.clients = s.clients ∧ (t.abort.drained → s.abort.drained ∨ s.Drains) := by
    intro hpc h
    obtain ⟨hm, rfl⟩ := locked_eq_some.1 h
    unfold abortLoop
    split
    · exact ⟨rfl, fun h => by cases h⟩
    · rename_i hcount
      obtain ⟨hbusy, hwait⟩ := not_or.1 hcount
      refine ⟨?_, fun _ => Or.inr ⟨hpc, hm, Classical.not_not.1 hbusy, hwait⟩⟩
      dsimp only [endLoop]
      split <;> split <;> simp only [(setEndFlags_frame _ _).2.1]
  unfold abortStep at h
  split at h
  · obtain rfl := Option.some.inj h
    exact ⟨rfl, fun h => by cases h⟩
  · exact loop (Or.inl ‹_›) h
  · exact loop (Or.inr ‹_›) h
  · rename_i hpc
    obtain ⟨-, rfl⟩ := locked_eq_some.1 h
    exact ⟨rfl, fun _ => Or.inl (by rw [hpc]; rfl)⟩
  all_goals cases h

/-- What a step leaves of the clients that neither take it nor time out. -/
theorem passed_of_step {i : ℕ} (hi : ∀ ok, a ≠ .client i ok) (hw : a ≠ .timeout i)
    (h : step tp s a = some t) : Passed s t i := by
  cases a with
  | client j ok =>
    obtain ⟨pc, -, h⟩ := Option.bind_eq_some_iff.1 h
    exact passed_clientStep (by rintro rfl; exact hi ok rfl) h
  | timeout j =>
    simp only [step] at h
    split at h
    · obtain rfl := Option.some.inj h
      exact .set (fun hij => hw (by rw [hij])) rfl
    · cases h
  | spuriousClient j =>
    simp only [step] at h
    split at h
    · rename_i hj
      obtain rfl := Option.some.inj h
      by_cases hij : i = j
      · subst hij
        exact .wake (by rw [setClient_clients, get_set hj, if_pos rfl, broadcastIdle_clients,
          List.getElem?_map, hj]; rfl)
      · exact .set hij rfl
    · cases h
  | noop c ok =>
    obtain ⟨k, -, h⟩ := Option.bind_eq_some_iff.1 h
    exact passed_noopStep h
  | abort => exact .same (by rw [(abortStep_frame h).1])
  | spuriousNoop c =>
    obtain ⟨k, -, h⟩ := Option.bind_eq_some_iff.1 h
    split at h
    · obtain rfl := Option.some.inj h
      exact .same rfl
    · cases h
  | spuriousAbort =>
    simp only [step, abortSpurious] at h
    split at h
    · obtain rfl := Option.some.inj h
      exact .same rfl
    · obtain rfl := Option.some.inj h
      exact .same rfl
    · cases h
  | resetToday =>
    obtain ⟨-, rfl⟩ := locked_eq_some.1 h
    exact .same rfl

/-- **What a step leaves of the clients that do not take it.** -/
theorem beside_of_step {i : ℕ} (hi : ∀ ok, a ≠ .client i ok) (h : step tp s a = some t) :
    Beside s t i := by
  by_cases hw : a = .timeout i
  · subst hw
    simp only [step] at h
    split at h
    · rename_i hj
      obtain rfl := Option.some.inj h
      refine ⟨fun pc => if pc = .wait then .expired else pc, fun pc => ?_, ?_⟩
      · by_cases hpc : pc = .wait
        · exact Or.inr ⟨hpc, Or.inr (if_pos hpc)⟩
        · exact Or.inl (if_neg hpc)
      · rw [setClient_clients, get_set hj, if_pos rfl, hj, Option.map_some, if_pos rfl]
    · cases h
  · exact (passed_of_step hi hw h).beside

/-- The clients that `abortTpConns` does not wait for. -/
theorem uncounted_of_drains {i : ℕ} {pc : ClientPc} (hI : s.Inv) (hd : s.Drains)
    (hi : s.clients[i]? = some pc) (hpc : pc.inTp) : pc = .call ∨ pc.pending? ≠ none := by
  obtain ⟨-, hm, hbusy, hwait⟩ := hd
  have hconn := conn?_eq_none hI hbusy hi
  have hzero : s.waiting = 0 := by
    have hcount := hI.waiting
    omega
  have hinWait := inWait_eq_false hI hzero hi
  have hnew : pc.inNewConn = false := by
    by_contra hne
    have hlock := (hI.lock (.client i)).2 ⟨pc, hi, by simpa using hne⟩
    rw [hm] at hlock
    cases hlock
  revert hpc hconn hinWait hnew
  cases pc <;> simp [ClientPc.inTp, ClientPc.conn?, ClientPc.inWait, ClientPc.inNewConn,
    ClientPc.pending?]

end

end Pool

end SmtpProxy
