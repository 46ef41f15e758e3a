/-
  A connection is used by one thread at a time.

  No lock is held during an exchange: a client may talk on a connection while
  its status is BUSY, the `connNOOP` thread while it is NOOP, and the status
  changes hands under the lock.
-/
import SmtpProxy.Pool.Invariant

namespace SmtpProxy

open Placement

/-- The connection a client exchanges commands on. -/
def ClientPc.exchange? : ClientPc → Option ℕ
  | .rset c | .mail c => some c
  | _ => none

/-- `connNOOP` sends NOOP or closes the connection. -/
def NoopPc.exchanges : NoopPc → Bool
  | .noop | .closeHeld | .close => true
  | _ => false

namespace Pool

/-- The thread is in an exchange on the connection `c`, or closes it. -/
def Uses (s : Pool) (c : ℕ) : Thread → Prop
  | .client i => ∃ pc, s.clients[i]? = some pc ∧ pc.exchange? = some c
  | .noop d => d = c ∧ ∃ k, s.conns[c]? = some k ∧ k.pc.exchanges

section
variable {tp : Tp} {s t : Pool} {a : Action}

theorem uses_client {i c : ℕ} (h : s.Uses c (.client i)) : s.holds i = some c := by
  obtain ⟨pc, hi, hpc⟩ := h
  rw [holds_eq hi]
  cases pc <;> first | exact hpc | cases hpc

/-- `connNOOP` uses a connection that is its own. -/
theorem uses_noop {c d : ℕ} (hI : s.Inv) (h : s.Uses c (.noop d)) :
    d = c ∧ s.place c = some .noop := by
  obtain ⟨rfl, k, hk, hpc⟩ := h
  have hown : k.pc.owns := by revert hpc; cases k.pc <;> simp [NoopPc.exchanges, NoopPc.owns]
  have hin : k.pc.inPool := by revert hpc; cases k.pc <;> simp [NoopPc.exchanges, NoopPc.inPool]
  exact ⟨rfl, by rw [place_eq hk hin, (hI.conn d k hk).owns hown]⟩

theorem uses_unique {c : ℕ} (hI : s.Inv) {u v : Thread} (hu : s.Uses c u) (hv : s.Uses c v) :
    u = v := by
  cases u with
  | client i =>
    have hbusy := (hI.holders.busy_iff c).2 ⟨i, uses_client hu⟩
    cases v with
    | client j => rw [hI.holders.unique i j c (uses_client hu) (uses_client hv)]
    | noop d =>
      obtain ⟨-, hnoop⟩ := uses_noop hI hv
      cases hbusy.symm.trans hnoop
  | noop d =>
    obtain ⟨rfl, hnoop⟩ := uses_noop hI hu
    cases v with
    | client j =>
      have hbusy := (hI.holders.busy_iff d).2 ⟨j, uses_client hv⟩
      cases hbusy.symm.trans hnoop
    | noop e => rw [(uses_noop hI hv).1]

/-- A client that gives its connection back leaves it idle or noop. -/
theorem place_given {i c : ℕ} (hH : s.Holders) (h : Shift s t) (hi : s.holds i = some c)
    (ht : t.holds i ≠ some c) : ∃ b, b ≠ .busy ∧ t.place c = some b := by
  cases h with
  | quiet hl hp hh | shift c a b ha hb hab hc hl hp hh | drop c hc hl hp hh =>
    exact absurd ((hh i).trans hi) ht
  | take j d hj hc hl hp hh | add j hj hs hh =>
    have hij : i ≠ j := by rintro rfl; cases hj.symm.trans hi
    exact absurd (((hh i).trans (if_neg hij)).trans hi) ht
  | give j d b hj hb hl hp hh =>
    by_cases hij : i = j
    · subst hij
      obtain rfl := Option.some.inj (hj.symm.trans hi)
      have hbusy : s.place d = some .busy := (hH.busy_iff d).2 ⟨i, hi⟩
      exact ⟨b, hb, by rw [hp, place_move, if_pos rfl, hbusy]; rfl⟩
    · exact absurd (((hh i).trans (if_neg hij)).trans hi) ht

/-- **Exclusive use.**  At most one thread is in an exchange on a connection or
    closes it; the busy connections are those that clients hold, one each;
    `connNOOP` sends and closes in status NOOP only; and a client that gives
    its connection back (as all that return have) leaves it not busy. -/
theorem pool_exclusive {n : ℕ} (h : Runs.Reach (step tp) (init n) s) :
    (∀ c u v, s.Uses c u → s.Uses c v → u = v) ∧
    (∀ c, (∃ k, s.conns[c]? = some k ∧ k.pc.inPool ∧ k.status = .busy) ↔
      ∃ i, s.holds i = some c) ∧
    (∀ i j c, s.holds i = some c → s.holds j = some c → i = j) ∧
    (∀ (c : ℕ) (k : Conn), s.conns[c]? = some k → k.pc.exchanges → k.status = .noop) ∧
    (∀ a t i c, step tp s a = some t → s.holds i = some c → t.holds i ≠ some c →
      ∃ k, t.conns[c]? = some k ∧ k.status ≠ .busy) ∧
    (∀ (i : ℕ) (r : Bool), s.clients[i]? = some (.ret r) → s.holds i = none) := by
  have hI := inv_of_reach h
  refine ⟨fun c u v => uses_unique hI, fun c => ?_, hI.holders.unique, fun c k hk hpc => ?_,
    fun a t i c hs hi ht => ?_, fun i r hi => holds_eq hi⟩
  · rw [← place_eq_some]; exact hI.holders.busy_iff c
  · refine (hI.conn c k hk).owns ?_
    revert hpc
    cases k.pc <;> simp [NoopPc.exchanges, NoopPc.owns]
  · have hshift := shift_of_trans hI (trans_of_step hs)
    obtain ⟨b, hb, hplace⟩ := place_given hI.holders hshift hi ht
    obtain ⟨k, hk, -, hst⟩ := place_eq_some.1 hplace
    exact ⟨k, hk, hst ▸ hb⟩

end

/-- A client in its first exchange holds the only connection. -/
theorem pool_exclusive_one : ∃ s : Pool, s.holds 0 = some 0 ∧
    ∀ u v, s.Uses 0 u → s.Uses 0 v → u = v := by
  have h : Runs.exec (step tpPlain) (init 1)
      (List.replicate 5 (.client 0 true)) =
      some ⟨none, ⟨[0], 1⟩, ⟨[], 0⟩, ⟨[], 0⟩, 0, 0, 0, [Conn.added], [.mail 0], .out⟩ := rfl
  exact ⟨_, rfl, (pool_exclusive (Runs.Reach.refl.of_exec h)).1 0⟩

end Pool

end SmtpProxy
