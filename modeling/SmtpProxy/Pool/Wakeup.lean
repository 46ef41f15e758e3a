/-
  No wake-up for a waiting client is lost.

  A client blocks on `idleCond` when it finds no room, under the lock.  Room
  appears when a connection becomes idle or ends, and the thread that makes it
  has a broadcast of `idleCond` still to do when it releases the lock
  (`Announced`); a broadcast leaves nobody blocked.  So nobody is blocked next
  to room that is not announced (`Heard`).

  * `room_of_step`: whoever starts to wait has found no room;
  * `announced_of_step`: a broadcast to come stays to come until nobody is
    blocked;
  * `Frees`: the steps that make room (`frees_of_room`); it is announced
    (`announced_of_frees`);
  * `no_lost_wakeup`.
-/
import SmtpProxy.Pool.Threads

namespace SmtpProxy

/-- Before its broadcast of `idleCond`. -/
def ClientPc.announces : ClientPc → Bool
  | .bcast _ => true
  | _ => false

/-- Before a broadcast of `idleCond`, in `connNOOP` or behind the unlock of `endConn`. -/
def NoopPc.announces : NoopPc → Bool
  | .bcast | .destroy | .endSignal | .endBcast => true
  | _ => false

namespace Pool

/-- There is a connection to take, or room for a new one. -/
def Room (tp : Tp) (s : Pool) : Prop :=
  s.idleConns.nodes ≠ [] ∨ s.busyConns.count + s.noopConns.count < tp.maxConn

/-- The step gives a connection back to `idleConns`, or takes one off the pool. -/
def Frees (s : Pool) (a : Action) : Prop :=
  (∃ i c ok, a = .client i ok ∧ s.clients[i]? = some (.release c)) ∨
    ∃ c k ok, a = .noop c ok ∧ s.conns[c]? = some k ∧
      (k.pc = .relock ∧ k.endFlag = false ∨ k.pc = .closeHeld ∨ k.pc = .delete)

/-- Some thread has still to broadcast `idleCond`. -/
def Announced (s : Pool) : Prop :=
  (∃ (i : ℕ) (pc : ClientPc), s.clients[i]? = some pc ∧ pc.announces) ∨
    ∃ (c : ℕ) (k : Conn), s.conns[c]? = some k ∧ k.pc.announces

/-- The client `i` is blocked on `idleCond`. -/
def Blocked (s : Pool) (i : ℕ) : Prop := s.clients[i]? = some .wait

/-- Nobody is blocked next to room that is not announced. -/
def Heard (tp : Tp) (s : Pool) : Prop := ∀ i, s.Blocked i → s.Room tp → s.Announced

section
variable {tp : Tp} {s t u : Pool} {a : Action}

/-! ## Blocked clients -/

theorem blocked_set {i j : ℕ} (pc : ClientPc) (hpc : pc ≠ .wait)
    (h : t.clients = s.clients.set i pc) (hj : t.Blocked j) : s.Blocked j := by
  rw [Blocked, h, List.getElem?_set] at hj
  split at hj
  · split at hj
    · exact absurd (Option.some.inj hj) hpc
    · cases hj
  · exact hj

/-- Nobody is blocked behind a broadcast. -/
theorem not_blocked_wake (j : ℕ) : ¬ s.broadcastIdle.Blocked j := by
  intro hj
  rw [Blocked, broadcastIdle_clients, List.getElem?_map] at hj
  obtain ⟨pc, -, hpc⟩ := Option.map_eq_some_iff.1 hj
  cases pc <;> cases hpc

theorem blocked_beside {i : ℕ} (h : Beside s t i) (hi : t.Blocked i) : s.Blocked i := by
  obtain ⟨f, hf, hget⟩ := h
  rw [Blocked, hget] at hi
  obtain ⟨pc, hpc, hfpc⟩ := Option.map_eq_some_iff.1 hi
  rcases hf pc with h | ⟨-, h | h⟩
  · rw [Blocked, hpc, ← h, hfpc]
  · cases h.symm.trans hfpc
  · cases h.symm.trans hfpc

/-- A full pool has no room. -/
theorem not_room {w : ℤ} {i : ℕ} {pc : ClientPc} (hI : s.Inv) (hidle : s.idleConns.count = 0)
    (hfull : s.busyConns.count + s.noopConns.count = tp.maxConn) :
    ¬ (({ s with waiting := w } : Pool).setClient i pc).Room tp := by
  have hcount : s.idleConns.count = s.idleConns.nodes.length := hI.lists.count .idle
  rintro (hroom | hroom)
  · refine hroom (List.eq_nil_of_length_eq_zero (l := s.idleConns.nodes) ?_)
    omega
  · exact absurd hfull (Int.ne_of_lt hroom)

/-- **Whoever starts to wait has found no room.** -/
theorem room_of_step {i : ℕ} (hI : s.Inv) (h : step tp s a = some t) (hi : t.Blocked i) :
    s.Blocked i ∨ ¬ t.Room tp := by
  rcases a.client_or i with ⟨ok, rfl⟩ | ha
  swap
  · exact Or.inl (blocked_beside (beside_of_step ha h) hi)
  obtain ⟨pc, -, h⟩ := Option.bind_eq_some_iff.1 h
  cases pc with
  | call | woken =>
    obtain ⟨-, hg⟩ := gets_of_step (by simp) h
    cases hg with
    | take => exact Or.inl (blocked_set _ (by simp) rfl hi)
    | start => exact Or.inl (blocked_set .connect (by simp) rfl hi)
    | wait _ hidle hfull => exact Or.inr (not_room hI hidle hfull)
  | wait => cases h
  | out | sent c | pause c | signal c r | ret r =>
    obtain rfl := Option.some.inj h
    exact Or.inl (blocked_set _ (by simp) rfl hi)
  | got c isNew =>
    obtain rfl := Option.some.inj h
    cases isNew <;> exact Or.inl (blocked_set _ (by simp) rfl hi)
  | connect | setup | rset c | mail c =>
    obtain rfl := Option.some.inj h
    cases ok <;> exact Or.inl (blocked_set _ (by simp) rfl hi)
  | limit c =>
    obtain ⟨k, -, rfl⟩ := Option.map_eq_some_iff.1 h
    refine Or.inl (blocked_set _ ?_ rfl hi)
    split
    · simp
    · split <;> simp
  | expired =>
    obtain ⟨-, rfl⟩ := locked_eq_some.1 h
    exact Or.inl (blocked_set (.ret false) (by simp) rfl hi)
  | release c =>
    obtain ⟨-, rfl⟩ := locked_eq_some.1 h
    exact Or.inl (blocked_set (.bcast c) (by simp) rfl hi)
  | retire c r =>
    obtain ⟨-, rfl⟩ := locked_eq_some.1 h
    exact Or.inl (blocked_set (.signal c r) (by simp) (by cases r <;> rfl) hi)
  | bcast c =>
    obtain rfl := Option.some.inj h
    exact absurd (blocked_set (s := s.broadcastIdle) _ (by simp) rfl hi) (not_blocked_wake i)

/-! ## Broadcasts to come -/

theorem announced_client {i : ℕ} {pc : ClientPc} (hi : s.clients[i]? = some pc)
    (hpc : pc.announces) (h : step tp s a = some t) : t.Announced ∨ ∀ j, ¬ t.Blocked j := by
  rcases a.client_or i with ⟨ok, rfl⟩ | ha
  · rw [step, hi] at h
    cases pc with
    | bcast c =>
      obtain rfl := Option.some.inj h
      exact Or.inr fun j hj =>
        not_blocked_wake j (blocked_set (s := s.broadcastIdle) _ (by simp) rfl hj)
    | _ => cases hpc
  · obtain ⟨f, hf, hget⟩ := beside_of_step ha h
    refine Or.inl (Or.inl ⟨i, f pc, by rw [hget, hi]; rfl, ?_⟩)
    rcases hf pc with h | ⟨rfl, -⟩
    · rwa [h]
    · cases hpc

theorem announced_conn {c : ℕ} {k : Conn} (hk : s.conns[c]? = some k)
    (hpc : k.pc.announces) (h : step tp s a = some t) : t.Announced ∨ ∀ j, ¬ t.Blocked j := by
  rcases a.noop_or c with ⟨ok, rfl⟩ | ha
  · simp only [step, hk, Option.bind_some, noopStep] at h
    cases hc : k.pc with
    | destroy | endSignal =>
      -- the thread goes on to its last broadcast
      simp only [hc] at h
      obtain rfl := Option.some.inj h
      exact Or.inl (Or.inr ⟨c, _, get_modify_self hk rfl, rfl⟩)
    | bcast | endBcast =>
      simp only [hc] at h
      obtain rfl := Option.some.inj h
      exact Or.inr fun j hj => not_blocked_wake j hj
    | _ => rw [hc] at hpc; cases hpc
  · rcases aside_of_step ha h with ⟨f, hf, hget⟩ | ⟨hnone, -⟩
    · refine Or.inl (Or.inr ⟨c, f k, by rw [hget, hk]; rfl, ?_⟩)
      rcases hf k with h | ⟨hw, -⟩
      · rwa [h]
      · rw [hw] at hpc; cases hpc
    · cases hnone.symm.trans hk

/-- **A broadcast to come stays to come until nobody is blocked.** -/
theorem announced_of_step (hann : s.Announced) (h : step tp s a = some t) :
    t.Announced ∨ ∀ j, ¬ t.Blocked j := by
  rcases hann with ⟨i, pc, hi, hpc⟩ | ⟨c, k, hk, hpc⟩
  · exact announced_client hi hpc h
  · exact announced_conn hk hpc h

/-! ## Room -/

theorem room_congr (h : ∀ st, t.list st = s.list st) (hr : t.Room tp) : s.Room tp := by
  have hb := h .busy
  have hi := h .idle
  have hn := h .noop
  simp only [list] at hb hi hn
  rwa [Room, hb, hi, hn] at hr

/-- A client that a step moves from a place other than its wait takes the step. -/
theorem client_of_moved {i : ℕ} {pc pc' : ClientPc} (h : step tp s a = some t)
    (hi : s.clients[i]? = some pc) (hi' : t.clients[i]? = some pc') (hne : pc' ≠ pc)
    (hw : pc ≠ .wait) : ∃ ok, a = .client i ok := by
  rcases a.client_or i with ⟨ok, rfl⟩ | ha
  · exact ⟨ok, rfl⟩
  · obtain ⟨f, hf, hget⟩ := beside_of_step ha h
    rw [hi, hi', Option.map_some, Option.some.injEq] at hget
    rcases hf pc with hsame | ⟨hwait, -⟩
    · exact absurd (hget.trans hsame) hne
    · exact absurd hwait hw

/-- A connection whose thread a step moves from a place other than its wait. -/
theorem noop_of_moved {c : ℕ} {k k' : Conn} (h : step tp s a = some t)
    (hk : s.conns[c]? = some k) (hk' : t.conns[c]? = some k') (hne : k'.pc ≠ k.pc)
    (hw : k.pc ≠ .wait) : ∃ ok, a = .noop c ok := by
  rcases a.noop_or c with ⟨ok, rfl⟩ | ha
  · exact ⟨ok, rfl⟩
  · rcases aside_of_step ha h with ⟨f, hf, hget⟩ | ⟨hnone, -⟩
    · rw [hk, hk', Option.map_some, Option.some.injEq] at hget
      rcases hf k with hsame | ⟨hwait, -⟩
      · exact absurd (by rw [hget, hsame]) hne
      · exact absurd hwait hw
    · cases hnone.symm.trans hk

/-- **Where room comes from.** -/
theorem frees_of_room (hI : s.Inv) (h : step tp s a = some t) (hr : t.Room tp) :
    s.Room tp ∨ s.Frees a := by
  have hT := trans_of_step h
  cases hT with
  | client | use | start | wait | giveUp | connFailed | bcast | signal | noop | noopWait | noopStart
  | noopBcast | endStart | close | endSignal | endBcast | abort | resetToday =>
    exact Or.inl (room_congr (fun st => by cases st <;> rfl) hr)
  | take hm hi hw hc =>
    refine Or.inl (Or.inl fun hnil => ?_)
    rw [hnil] at hc
    cases hc
  | connAdded hi =>
    refine Or.inl (hr.imp_right fun hlt => ?_)
    simp only [connAdded, setClient, dllistAppend] at hlt
    omega
  | @release i c hm hi =>
    have hi' : (s.releaseConn i c).clients[i]? = some (.bcast c) := (get_set hi).trans (if_pos rfl)
    obtain ⟨ok, rfl⟩ := client_of_moved h hi hi' (by simp) (by simp)
    exact Or.inr (Or.inl ⟨i, c, ok, rfl, hi⟩)
  | @retire i c r hm hi =>
    refine Or.inl (hr.imp (fun h => by cases r <;> exact h) fun hlt => ?_)
    have hb : (s.retireConn i c r).busyConns.count = s.busyConns.count - 1 := by cases r <;> rfl
    have hn : (s.retireConn i c r).noopConns.count = s.noopConns.count + 1 := by cases r <;> rfl
    omega
  | @noopTake c k hm hk hpc hs | @endTake c k hm hk hpc hs =>
    have hc : c ∈ s.idleConns.nodes :=
      (hI.lists.mem .idle c).2 (by rw [place_eq hk (inPool_top hpc), hs])
    exact Or.inl (Or.inl (List.ne_nil_of_mem hc))
  | @noopBack c k hm hk hpc he =>
    have hk' := get_modify_self (t := (s.move c .noop .idle).setPc c .bcast) hk
      (setPc_move_conns ..)
    obtain ⟨ok, rfl⟩ := noop_of_moved h hk hk' (by simp [hpc]) (by simp [hpc])
    exact Or.inr (Or.inr ⟨c, k, ok, rfl, hk, .inl ⟨hpc, he⟩⟩)
  | @closeHeld c k hk hpc =>
    have hk' := get_modify_self hk (s.closeHeld_conns (c := c))
    obtain ⟨ok, rfl⟩ := noop_of_moved h hk hk' (by simp [hpc]) (by simp [hpc])
    exact Or.inr (Or.inr ⟨c, k, ok, rfl, hk, .inr (.inl hpc)⟩)
  | @delete c k hm hk hpc =>
    have hk' : (s.endConnDelete c).conns[c]? = some { k with pc := .destroy } :=
      get_modify_self (f := fun k => { k with pc := .destroy }) hk rfl
    obtain ⟨ok, rfl⟩ := noop_of_moved h hk hk' (by simp [hpc]) (by simp [hpc])
    exact Or.inr (Or.inr ⟨c, k, ok, rfl, hk, .inr (.inr hpc)⟩)
  | @flags ns ms =>
    obtain ⟨-, -, -, hl₁⟩ := setEndFlags_frame ms s
    obtain ⟨-, -, -, hl₂⟩ := setEndFlags_frame ns (setEndFlags ms s)
    refine Or.inl (room_congr (fun st => ?_) hr)
    rw [← hl₁, ← hl₂]
    cases st <;> rfl

/-- Whoever makes room has a broadcast to come. -/
theorem announced_of_frees (h : step tp s a = some t) (hf : s.Frees a) : t.Announced := by
  rcases hf with ⟨i, c, ok, rfl, hi⟩ | ⟨c, k, ok, rfl, hk, hpc⟩
  · rw [step, hi] at h
    obtain ⟨-, rfl⟩ := locked_eq_some.1 h
    exact Or.inl ⟨i, .bcast c, (get_set hi).trans (if_pos rfl), rfl⟩
  · simp only [step, hk, Option.bind_some, noopStep] at h
    rcases hpc with ⟨hpc, he⟩ | hpc | hpc
    · simp only [hpc] at h
      obtain ⟨-, rfl⟩ := locked_eq_some.1 h
      rw [noopBack, he]
      exact Or.inr ⟨c, _, get_modify_self hk (setPc_move_conns ..), rfl⟩
    · simp only [hpc] at h
      obtain rfl := Option.some.inj h
      exact Or.inr ⟨c, _, get_modify_self hk closeHeld_conns, rfl⟩
    · simp only [hpc] at h
      obtain ⟨-, rfl⟩ := locked_eq_some.1 h
      exact Or.inr ⟨c, _, get_modify_self (f := fun k => { k with pc := .destroy }) hk rfl, rfl⟩

/-! ## The invariant -/

theorem heard_init (n : ℕ) : (init n).Heard tp := by
  intro i hi
  cases client_init hi

theorem heard_of_step (hI : s.Inv) (hH : s.Heard tp) (h : step tp s a = some t) : t.Heard tp := by
  intro i hi hroom
  have hblocked : s.Blocked i := (room_of_step hI h hi).resolve_right fun hno => hno hroom
  rcases frees_of_room hI h hroom with hroom | hf
  · exact (announced_of_step (hH i hblocked hroom) h).resolve_right fun hno => hno i hi
  · exact announced_of_frees h hf

/-- **No lost wake-up.**  `waiting` counts the clients in the wait loop, and
    while a client is blocked next to an idle connection, or to room for a new
    one, some thread is between its locked section and its broadcast. -/
theorem no_lost_wakeup {n : ℕ} (h : Runs.Reach (step tp) (init n) s) :
    s.waiting = s.clients.countP ClientPc.inWait ∧
    (s.mtx = none → (∃ i, s.Blocked i) →
      s.idleConns.nodes ≠ [] ∨ s.busyConns.count + s.noopConns.count < tp.maxConn →
      s.Announced) := by
  have hboth : s.Inv ∧ s.Heard tp := by
    refine h.inv (I := fun s => s.Inv ∧ s.Heard tp) ⟨inv_init n, heard_init n⟩ ?_
    intro s a t hs ha
    exact ⟨inv_trans hs.1 (trans_of_step ha), heard_of_step hs.1 hs.2 ha⟩
  refine ⟨hboth.1.waiting, ?_⟩
  rintro - ⟨i, hi⟩ hroom
  exact hboth.2 i hi hroom

end

/-- The second client is blocked, the first one has just released the only
    connection. -/
theorem no_lost_wakeup_two : ∃ s : Pool, s.Blocked 1 ∧ s.idleConns.nodes = [0] ∧ s.Announced := by
  have h : Runs.exec (step tpPlain) (init 2)
      (List.replicate 8 (.client 0 true) ++ List.replicate 2 (.client 1 true) ++
        [.client 0 true]) =
      some ⟨none, ⟨[], 0⟩, ⟨[0], 1⟩, ⟨[], 0⟩, 1, 1, 1,
        [{ Conn.added with status := .idle, sendCount := 1 }], [.bcast 0, .wait], .out⟩ := rfl
  exact ⟨_, show _ = _ from rfl, rfl,
    (no_lost_wakeup (Runs.Reach.refl.of_exec h)).2 rfl ⟨1, rfl⟩ (Or.inl (by simp))⟩

end Pool

end SmtpProxy
