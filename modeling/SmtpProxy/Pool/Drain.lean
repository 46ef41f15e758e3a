/-
  The drain of `abortTpConns`, and where it loses its wake-up.

  `abortTpConns` sleeps on `idleCond` until no connection is busy and no
  client waits.  A client that leaves `getAnIdleConn` without a connection
  (timed out, or its `newConn` failed) broadcasts nothing, so if it was the
  last one the sleeper stays asleep (`Stuck`).  `drain_iff`: that is the only
  way to get stuck.
-/
import SmtpProxy.Pool.Bound

namespace SmtpProxy

open Placement

/-- On the way into `getAnIdleConn`, in `newConn`, or before a broadcast. -/
def ClientPc.coming : ClientPc → Bool
  | .call | .connect | .setup | .bcast _ => true
  | _ => false

/-- The thread of a connection is neither blocked nor at its end. -/
def NoopPc.runs : NoopPc → Bool
  | .wait | .exited => false
  | _ => true

namespace Pool

/-- `abortTpConns` is asleep on `idleCond` with nothing to wait for, and no
    thread is left that could broadcast. -/
structure Stuck (s : Pool) : Prop where
  asleep : s.abort = .waitIdle
  busy : s.busyConns.count = 0
  waiting : s.waiting = 0
  clients : ∀ (i : ℕ) (pc : ClientPc), s.clients[i]? = some pc → pc.coming = false
  conns : ∀ (c : ℕ) (k : Conn), s.conns[c]? = some k →
    k.pc = .exited ∨ k.pc = .wait ∧ ¬ s.Pending c

/-- The thread of the connection `c` runs, or will be signalled. -/
def Awake (s : Pool) (c : ℕ) : Prop :=
  ∃ k, s.conns[c]? = some k ∧ (k.pc.runs ∨ k.pc = .wait ∧ s.Pending c)

/-- A thread is left that can run on to a broadcast of `idleCond`. -/
def Active (s : Pool) : Prop :=
  (∃ (i : ℕ) (pc : ClientPc), s.clients[i]? = some pc ∧ pc.engaged) ∨ ∃ c, s.Awake c

/-- The client `i` leaves `getAnIdleConn` without a connection. -/
def LeavesEmpty (s : Pool) (a : Action) (i : ℕ) : Prop :=
  ∃ ok, a = .client i ok ∧ (s.clients[i]? = some .expired ∨
    ok = false ∧ ∃ pc, s.clients[i]? = some pc ∧ pc.inNewConn)

/-- While `abortTpConns` sleeps, the last active thread leaves `getAnIdleConn`
    without a connection. -/
def LastLeaves (s : Pool) (a : Action) : Prop :=
  s.abort = .waitIdle ∧ ∃ i, s.LeavesEmpty a i ∧
    (∀ (j : ℕ) (pc : ClientPc), s.clients[j]? = some pc → j ≠ i → pc.engaged = false) ∧
    ∀ c, ¬ s.Awake c

section
variable {tp : Tp} {s t : Pool} {a : Action}

theorem active_client {i : ℕ} {pc : ClientPc} (hi : s.clients[i]? = some pc) (h : pc.engaged) :
    s.Active := Or.inl ⟨i, pc, hi, h⟩

theorem active_runs {c : ℕ} {k : Conn} (hk : s.conns[c]? = some k) (h : k.pc.runs) : s.Active :=
  Or.inr ⟨c, k, hk, Or.inl h⟩

theorem active_set {i : ℕ} {pc pc' : ClientPc} (hi : s.clients[i]? = some pc)
    (ht : t.clients = s.clients.set i pc') (h : pc'.engaged) : t.Active := by
  have hset : t.clients[i]? = some pc' := by rw [ht, get_set hi, if_pos rfl]
  exact active_client hset h

/-- The counters are those of engaged clients. -/
theorem engaged_of_count (hI : s.Inv) (h : s.busyConns.count ≠ 0 ∨ s.waiting ≠ 0) :
    ∃ (i : ℕ) (pc : ClientPc), s.clients[i]? = some pc ∧ pc.engaged := by
  rcases h with h | h
  · obtain ⟨c, hc⟩ : ∃ c, c ∈ (s.list .busy).nodes := by
      refine List.exists_mem_of_ne_nil _ fun hnil => h ?_
      have := hI.lists.count .busy
      rw [hnil] at this
      exact this
    obtain ⟨i, hi⟩ := (hI.holders.busy_iff c).1 ((hI.lists.mem .busy c).1 hc)
    obtain ⟨pc, hi, hpc⟩ := holds_eq_some.1 hi
    refine ⟨i, pc, hi, ?_⟩
    cases pc <;> first | rfl | cases hpc
  · rw [hI.waiting] at h
    obtain ⟨pc, hpc, hw⟩ := List.countP_pos_iff.1 (Nat.pos_of_ne_zero fun h0 => h (by rw [h0]; rfl))
    obtain ⟨i, hi⟩ := List.mem_iff_getElem?.1 hpc
    refine ⟨i, pc, hi, ?_⟩
    cases pc <;> first | rfl | cases hw

theorem stuck_iff (hI : s.Inv) : s.Stuck ↔ s.abort = .waitIdle ∧ ¬ s.Active := by
  constructor
  · intro h
    refine ⟨h.asleep, ?_⟩
    rintro (⟨i, pc, hi, hpc⟩ | ⟨c, k, hk, hc⟩)
    · have hcoming := h.clients i pc hi
      have hbusy := conn?_eq_none hI h.busy hi
      have hwait := inWait_eq_false hI h.waiting hi
      revert hpc hcoming hbusy hwait
      cases pc <;> simp [ClientPc.engaged, ClientPc.coming, ClientPc.conn?, ClientPc.inWait]
    · rcases h.conns c k hk with hpc | ⟨hpc, hp⟩
      · rcases hc with hc | ⟨hc, -⟩ <;> simp [hpc, NoopPc.runs] at hc
      · rcases hc with hc | ⟨-, hc⟩
        · simp [hpc, NoopPc.runs] at hc
        · exact hp hc
  · rintro ⟨hw, hA⟩
    have hcount : ¬ (s.busyConns.count ≠ 0 ∨ s.waiting ≠ 0) := fun h =>
      hA (Or.inl (engaged_of_count hI h))
    refine ⟨hw, by_contra fun h => hcount (Or.inl h), by_contra fun h => hcount (Or.inr h), ?_, ?_⟩
    · intro i pc hi
      by_contra hpc
      refine hA (active_client hi ?_)
      revert hpc
      cases pc <;> simp [ClientPc.engaged, ClientPc.coming]
    · intro c k hk
      have hno : ¬ s.Awake c := fun h => hA (Or.inr ⟨c, h⟩)
      have hruns : k.pc.runs = false := by
        by_contra h
        exact hno ⟨k, hk, Or.inl (by simpa using h)⟩
      cases hpc : k.pc <;> simp [hpc, NoopPc.runs] at hruns
      · exact Or.inr ⟨rfl, fun hp => hno ⟨k, hk, Or.inr ⟨hpc, hp⟩⟩⟩
      · exact Or.inl rfl

/-! ## One step -/

/-- A thread that is active and not the client `i` stays so. -/
theorem active_other {i : ℕ} {pc' : ClientPc} {pc : ClientPc} (hi : s.clients[i]? = some pc)
    (hpc : pc.pending? = none) (ht : t.clients = s.clients.set i pc') (hc : t.conns = s.conns)
    (h : (∃ (j : ℕ) (pj : ClientPc), s.clients[j]? = some pj ∧ j ≠ i ∧ pj.engaged) ∨
      ∃ c, s.Awake c) : t.Active := by
  rcases h with ⟨j, pj, hj, hji, hpj⟩ | ⟨c, k, hk, hrun⟩
  · exact active_client (by rw [ht, get_set hi, if_neg hji, hj]) hpj
  · refine Or.inr ⟨c, k, by rw [hc, hk], ?_⟩
    rcases hrun with hrun | ⟨hw, hp⟩
    · exact Or.inl hrun
    · exact Or.inr ⟨hw, pending_set _ hi ht (fun h => by simp [hpc] at h) hp⟩

/-- The last active thread does not leave, so another one is active. -/
theorem other_of_not_last {i : ℕ} (hl : s.LeavesEmpty a i) (hw : s.abort = .waitIdle)
    (hL : ¬ s.LastLeaves a) :
    (∃ (j : ℕ) (pj : ClientPc), s.clients[j]? = some pj ∧ j ≠ i ∧ pj.engaged) ∨
      ∃ c, s.Awake c := by
  by_contra hno
  obtain ⟨h₁, h₂⟩ := not_or.1 hno
  refine hL ⟨hw, i, hl, fun j pj hj hji => ?_, fun c hc => h₂ ⟨c, hc⟩⟩
  by_contra hpj
  exact h₁ ⟨j, pj, hj, hji, by simpa using hpj⟩

theorem broadcastIdle_abort : s.broadcastIdle.abort ≠ .waitIdle := by
  simp only [broadcastIdle]
  split
  · decide
  · assumption

/-- **What a step leaves active**: all but a last client that leaves
    `getAnIdleConn` without a connection. -/
theorem active_trans (hI : s.Inv) (h : Trans tp s a t) (hA : s.abort = .waitIdle → s.Active)
    (hL : ¬ s.LastLeaves a) (hw : t.abort = .waitIdle) : t.Active := by
  cases h with
  | @client i pc pc' hi h =>
    cases hpc' : pc'.engaged with
    | true => exact active_set hi rfl hpc'
    | false =>
      have hpc : pc.engaged = false := by
        by_contra hne
        have := h.engaged (by simpa using hne)
        simp [hpc'] at this
      rcases hA hw with ⟨j, pj, hj, hpj⟩ | ⟨c, k, hk, hrun⟩
      · have hji : j ≠ i := by
          rintro rfl
          obtain rfl := Option.some.inj (hi.symm.trans hj)
          simp [hpc] at hpj
        exact active_client (by rw [setClient_clients, get_set hi, if_neg hji, hj]) hpj
      · refine Or.inr ⟨c, k, hk, hrun.imp id fun ⟨h₁, h₂⟩ => ⟨h₁, ?_⟩⟩
        exact pending_set _ hi rfl (fun hc => h.pending.trans hc) h₂
  | @use i c pc pc' f hi hc h hf =>
    have hpc : pc.engaged := by cases pc <;> first | rfl | cases hc
    exact active_set hi rfl (h.engaged hpc)
  | @take i c pc w hm hi hw hc =>
    exact active_set hi rfl rfl
  | @start i pc w hm hi =>
    exact active_set hi rfl rfl
  | @wait i pc w hm hi =>
    exact active_set hi rfl rfl
  | @giveUp i hm hi ha =>
    obtain ⟨ok, ha⟩ := ha
    exact active_other hi rfl rfl rfl (other_of_not_last ⟨ok, ha, Or.inl hi⟩ hw hL)
  | @connFailed i pc hi h ha =>
    exact active_other hi (ClientPc.pending_newConn h) rfl rfl
      (other_of_not_last ⟨false, ha, Or.inr ⟨rfl, pc, hi, h⟩⟩ hw hL)
  | @connAdded i hi =>
    exact active_set hi rfl rfl
  | @release i c hm hi =>
    exact active_set hi rfl rfl
  | @retire i c r hm hi =>
    obtain ⟨k, hk, hin, -⟩ := place_eq_some.1 ((hI.holders.busy_iff c).2 ⟨i, holds_eq hi⟩)
    refine Or.inr ⟨c, _, get_modify_self hk (retireConn_conns r), ?_⟩
    by_cases hpc : k.pc = .wait
    · refine Or.inr ⟨hpc, i, .signal c r, ?_, rfl⟩
      rw [show (s.retireConn i c r).clients = s.clients.set i (.signal c r) by cases r <;> rfl,
        get_set hi, if_pos rfl]
    · refine Or.inl ?_
      revert hin hpc
      show k.pc.inPool = true → k.pc ≠ .wait → k.pc.runs = true
      cases k.pc <;> simp [NoopPc.inPool, NoopPc.runs]
  | bcast | noopBcast | endBcast => exact absurd hw broadcastIdle_abort
  | @signal i c r hi =>
    rcases hA hw with ⟨j, pj, hj, hpj⟩ | ⟨d, k, hk, hrun⟩
    · have hji : j ≠ i := by
        rintro rfl
        obtain rfl := Option.some.inj (hi.symm.trans hj)
        cases hpj
      exact active_client (i := j) ((get_set hi).trans ((if_neg hji).trans hj)) hpj
    · by_cases hd : d = c
      · subst hd
        refine active_runs (get_modify_self hk rfl) ?_
        dsimp only
        rcases hrun with hrun | ⟨hpc, -⟩
        · split
          · rfl
          · exact hrun
        · rw [if_pos hpc]; rfl
      · refine Or.inr ⟨d, k, ?_, hrun.imp id fun ⟨h₁, h₂⟩ => ⟨h₁, ?_⟩⟩
        · rw [setClient_conns, signalConn, updConn_conns, get_modify, if_neg hd, hk]
        · exact pending_set _ hi rfl (fun hc => absurd (Option.some.inj hc).symm hd) h₂
  | @noop c k pc f hk h hf =>
    refine active_runs (get_modify_self hk rfl) ?_
    rw [(hf k).pc]
    have hrun := h.run
    revert hrun
    cases pc <;> simp [NoopPc.runs]
  | noopWait hm hk hpc h =>
    refine Or.inl ?_
    rcases h with hs | ⟨-, hwait⟩
    · have hplace := place_eq hk (inPool_top hpc)
      obtain ⟨i, hi⟩ := (hI.holders.busy_iff _).1 (hs ▸ hplace)
      obtain ⟨pc, hi, hc⟩ := holds_eq_some.1 hi
      exact ⟨i, pc, hi, by cases pc <;> first | rfl | cases hc⟩
    · have hne : s.waiting ≠ 0 := by omega
      exact engaged_of_count (s := s) hI (Or.inr hne)
  | noopStart hm hk | close hk | endSignal hk => exact active_runs (get_modify_self hk rfl) rfl
  | endStart hm hk =>
    exact active_runs (get_modify_self (f := fun k => { k with pc := .closeHeld }) hk rfl) rfl
  | delete hm hk =>
    exact active_runs (get_modify_self (f := fun k => { k with pc := .destroy }) hk rfl) rfl
  | noopTake hm hk | noopBack hm hk => exact active_runs (get_modify_self hk (setPc_move_conns _)) rfl
  | endTake hm hk => exact active_runs (get_modify_self hk endConnLocked_move_conns) rfl
  | closeHeld hk => exact active_runs (get_modify_self hk closeHeld_conns) rfl
  | abort h =>
    have hne : s.busyConns.count ≠ 0 ∨ s.waiting ≠ 0 := (h hw).imp id fun h => by omega
    exact Or.inl (engaged_of_count (s := s) hI hne)
  | flags =>
    exfalso
    revert hw
    simp only [endLoop]
    split <;> simp
  | resetToday => exact hA hw

/-- The state after a last client has left without a connection. -/
theorem not_active_left {i : ℕ} {pc : ClientPc} (hi : s.clients[i]? = some pc)
    (ht : t.clients = s.clients.set i (.ret false)) (hc : t.conns = s.conns)
    (hj : ∀ (j : ℕ) (pc : ClientPc), s.clients[j]? = some pc → j ≠ i → pc.engaged = false)
    (hno : ∀ c, ¬ s.Awake c) : ¬ t.Active := by
  rintro (⟨j, pj, hpj, hen⟩ | ⟨c, k, hk, hrun⟩)
  · rw [ht, get_set hi] at hpj
    split at hpj
    · obtain rfl := Option.some.inj hpj
      cases hen
    · simp [hj j pj hpj ‹_›] at hen
  · refine hno c ⟨k, hc ▸ hk, hrun.imp id fun ⟨hw, j, pj, hpj, hp⟩ => ⟨hw, j, pj, ?_, hp⟩⟩
    rw [ht, get_set hi] at hpj
    split at hpj
    · obtain rfl := Option.some.inj hpj
      cases hp
    · exact hpj

theorem stuck_of_lastLeaves (hI : t.Inv) (hL : s.LastLeaves a) (hs : step tp s a = some t) :
    t.Stuck := by
  obtain ⟨hw, i, ⟨ok, rfl, hleave⟩, hj, hno⟩ := hL
  rcases hleave with hi | ⟨rfl, pc, hi, hpc⟩
  · rw [step, hi] at hs
    obtain ⟨-, rfl⟩ := locked_eq_some.1 hs
    exact (stuck_iff hI).2 ⟨hw, not_active_left hi rfl rfl hj hno⟩
  · rw [step, hi] at hs
    obtain rfl : s.connFailed i = t := by
      cases pc <;> first | exact Option.some.inj hs | cases hpc
    exact (stuck_iff hI).2 ⟨hw, not_active_left hi rfl rfl hj hno⟩

end

/-- With one connection: a client has it and another one waits when
    `abortTpConns` goes to sleep. -/
def drainStart : List Action :=
  List.replicate 5 (.client 0 true) ++ List.replicate 2 (.client 1 true) ++ [.abort, .abort]

/-- The first client's mail fails and its connection ends, which wakes both
    others; `abortTpConns` sees the second client and sleeps again; that
    client's `newConn` fails. -/
def drainEnd : List Action :=
  [.client 0 false, .client 0 true, .client 0 true] ++ List.replicate 5 (.noop 0 true) ++
    [.abort, .client 1 true, .client 1 false]

/-- The state after these actions: the connection has ended, and both clients
    have returned without success. -/
def drained : Pool :=
  ⟨none, ⟨[], 0⟩, ⟨[], 0⟩, ⟨[], 0⟩, 0, 0, 0, [⟨.noop, 0, 0, true, false, .exited⟩],
    [.ret false, .ret false], .waitIdle⟩

theorem stuck_drained : drained.Stuck := by
  refine ⟨rfl, rfl, rfl, fun i pc hi => ?_, fun c k hk => ?_⟩
  · have hmem : pc ∈ [ClientPc.ret false, .ret false] := List.mem_of_getElem? hi
    simp only [List.mem_cons, List.not_mem_nil, or_false, or_self] at hmem
    rw [hmem]; rfl
  · obtain rfl := List.mem_singleton.1 (List.mem_of_getElem? hk)
    exact Or.inl rfl

end Pool

end SmtpProxy
