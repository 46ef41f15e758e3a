/-
  The clients that `getAnIdleConn` turns away because their wait has timed out.

  Between the end of its wait and the lock such a client is `expired`; when it
  has the lock it answers "500 proxy too busy" and does not look at the pool
  again (`giveUp`).

  * `Spent`: no client whose wait has timed out is next to room;
  * `Frees`: the steps that make room; `Late`: those that break `Spent`
    (`spent_of_step`, `not_spent_of_late`);
  * `spent_iff`: it holds all the time iff no step is late;
  * `full_of_spent`: what a client finds that is then turned away.
-/
import SmtpProxy.Pool.Bound
import SmtpProxy.Pool.Wakeup

namespace SmtpProxy

namespace Pool

/-- The wait of the client `i` has timed out, and it has not got the lock yet. -/
def Expired (s : Pool) (i : ℕ) : Prop := s.clients[i]? = some .expired

/-- Whoever has timed out has no room. -/
def Spent (tp : Tp) (s : Pool) : Prop := ∀ i, s.Expired i → ¬ s.Room tp

/-- A wait times out next to room, or room is made while a client has timed out
    and not got the lock yet. -/
def Late (tp : Tp) (s : Pool) (a : Action) : Prop :=
  (∃ i, a = .timeout i ∧ s.Room tp) ∨ s.Frees a ∧ ∃ i, s.Expired i

section
variable {tp : Tp} {s t : Pool} {a : Action}

/-- What a step that frees a connection leaves has room. -/
theorem room_of_frees (hC : s.Cap tp) (hI : s.Inv) (h : step tp s a = some t)
    (hf : s.Frees a) : t.Room tp := by
  rcases hf with ⟨i, c, ok, rfl, hi⟩ | ⟨c, k, ok, rfl, hk, hpc⟩
  · rw [step, hi] at h
    obtain ⟨-, rfl⟩ := locked_eq_some.1 h
    exact Or.inl (by simp [releaseConn, move, dllistMvNode, setList, list, dllistAppend, setClient])
  · have hidle : 0 ≤ s.idleConns.count := by
      have hcount : s.idleConns.count = s.idleConns.nodes.length := hI.lists.count .idle
      omega
    have hbound := hC.bound
    simp only [step, hk, Option.bind_some, noopStep] at h
    rcases hpc with ⟨hpc, he⟩ | hpc | hpc
    · simp only [hpc] at h
      obtain ⟨-, rfl⟩ := locked_eq_some.1 h
      rw [noopBack, he]
      exact Or.inl (by simp [move, dllistMvNode, setList, list, dllistAppend, setPc, updConn])
    · simp only [hpc] at h
      obtain rfl := Option.some.inj h
      refine Or.inr ?_
      simp only [size, endConnDelete, setPc, updConn, setList, dllistDelete] at *
      omega
    · simp only [hpc] at h
      obtain ⟨-, rfl⟩ := locked_eq_some.1 h
      refine Or.inr ?_
      simp only [size, endConnDelete, setPc, updConn, setList, dllistDelete] at *
      omega

/-! ## Clients that have timed out -/

theorem not_expired_set {i : ℕ} {u : Pool} {pc pc' : ClientPc} (hi : u.clients[i]? = some pc)
    (hpc : pc' ≠ .expired) (ht : t.clients = u.clients.set i pc') : ¬ t.Expired i := by
  rw [Expired, ht, get_set hi, if_pos rfl]
  exact fun he => hpc (Option.some.inj he)

/-- A client does not time out by a step of its own. -/
theorem not_expired_own {i : ℕ} {ok : Bool} (h : step tp s (.client i ok) = some t) :
    ¬ t.Expired i := by
  obtain ⟨pc, hi, h⟩ := Option.bind_eq_some_iff.1 h
  cases pc with
  | call | woken =>
    obtain ⟨-, hg⟩ := gets_of_step (by simp) h
    cases hg with
    | take => exact not_expired_set hi (by simp) rfl
    | start => exact not_expired_set hi (show ClientPc.connect ≠ .expired by simp) rfl
    | wait => exact not_expired_set hi (show ClientPc.wait ≠ .expired by simp) rfl
  | wait => cases h
  | out | sent c | pause c | signal c r | ret r =>
    obtain rfl := Option.some.inj h
    exact not_expired_set hi (by simp) rfl
  | got c isNew =>
    obtain rfl := Option.some.inj h
    cases isNew <;> exact not_expired_set hi (by simp) rfl
  | connect | setup | rset c | mail c =>
    obtain rfl := Option.some.inj h
    cases ok <;> exact not_expired_set hi (by simp) rfl
  | limit c =>
    obtain ⟨k, -, rfl⟩ := Option.map_eq_some_iff.1 h
    refine not_expired_set hi ?_ rfl
    split
    · simp
    · split <;> simp
  | expired =>
    obtain ⟨-, rfl⟩ := locked_eq_some.1 h
    exact not_expired_set hi (show ClientPc.ret false ≠ .expired by simp) rfl
  | release c =>
    obtain ⟨-, rfl⟩ := locked_eq_some.1 h
    exact not_expired_set hi (show ClientPc.bcast c ≠ .expired by simp) rfl
  | retire c r =>
    obtain ⟨-, rfl⟩ := locked_eq_some.1 h
    exact not_expired_set hi (show ClientPc.signal c r ≠ .expired by simp) (by cases r <;> rfl)
  | bcast c =>
    obtain rfl := Option.some.inj h
    have hb : s.broadcastIdle.clients[i]? = some (.bcast c) := get_broadcastIdle hi rfl
    exact not_expired_set hb (by simp) rfl

/-- **Whoever has timed out** has just done so, or had before. -/
theorem expired_of_step {i : ℕ} (h : step tp s a = some t) (hi : t.Expired i) :
    s.Expired i ∨ a = .timeout i := by
  by_cases hw : a = .timeout i
  · exact Or.inr hw
  rcases a.client_or i with ⟨ok, rfl⟩ | ha
  · exact absurd hi (not_expired_own h)
  · rcases passed_of_step ha hw h with hget | hget
    · exact Or.inl (by rw [Expired, ← hget]; exact hi)
    · -- a broadcast makes nobody time out
      rw [Expired, hget, broadcastIdle_clients, List.getElem?_map] at hi
      obtain ⟨pc, hpc, hwake⟩ := Option.map_eq_some_iff.1 hi
      cases pc with
      | expired => exact Or.inl hpc
      | _ => cases hwake

theorem timeout_eq {i : ℕ} (h : step tp s (.timeout i) = some t) :
    s.clients[i]? = some .wait ∧ t = s.setClient i .expired := by
  simp only [step] at h
  split at h
  · rename_i hi
    exact ⟨hi, (Option.some.inj h).symm⟩
  · cases h

/-- **A step that is not late keeps those who have timed out from room.** -/
theorem spent_of_step (hI : s.Inv) (hS : s.Spent tp) (hL : ¬ s.Late tp a)
    (h : step tp s a = some t) : t.Spent tp := by
  intro i hi hroom
  rcases expired_of_step h hi with hi' | rfl
  · rcases frees_of_room hI h hroom with hr | hf
    · exact hS i hi' hr
    · exact hL (Or.inr ⟨hf, i, hi'⟩)
  · obtain ⟨-, rfl⟩ := timeout_eq h
    exact hL (Or.inl ⟨i, rfl, room_congr (fun st => by cases st <;> rfl) hroom⟩)

/-- A late step leaves a client that has timed out next to room. -/
theorem not_spent_of_late (hI : s.Inv) (hC : s.Cap tp) (hL : s.Late tp a)
    (h : step tp s a = some t) : ¬ t.Spent tp := by
  rcases hL with ⟨i, rfl, hr⟩ | ⟨hf, i, hi⟩
  · obtain ⟨hi, rfl⟩ := timeout_eq h
    have hexp : (s.setClient i .expired).Expired i := (get_set hi).trans (if_pos rfl)
    exact fun hS => hS i hexp hr
  · have hne : ∀ ok, a ≠ .client i ok := by
      rintro ok rfl
      rcases hf with ⟨j, c, ok', he, hj⟩ | ⟨c, k, ok', he, -⟩
      · cases he
        cases hi.symm.trans hj
      · cases he
    have hexp : t.Expired i := by
      obtain ⟨f, hfi, hget⟩ := beside_of_step hne h
      rw [Expired, hget, hi, Option.map_some]
      rcases hfi .expired with hsame | ⟨hw, -⟩
      · rw [hsame]
      · cases hw
    exact fun hS => hS i hexp (room_of_frees hC hI h hf)

/-- **What a client finds that is turned away**: nothing to take, and all connections in use. -/
theorem full_of_spent {i : ℕ} (hI : s.Inv) (hC : s.Cap tp) (hS : s.Spent tp) (hi : s.Expired i) :
    s.idleConns.nodes = [] ∧ s.busyConns.count + s.noopConns.count = tp.maxConn := by
  have hroom := hS i hi
  rw [Room, not_or, not_not] at hroom
  obtain ⟨hidle, hfull⟩ := hroom
  have hcount : s.idleConns.count = s.idleConns.nodes.length := hI.lists.count .idle
  have hbound := hC.bound
  rw [hidle, List.length_nil] at hcount
  rw [size] at hbound
  exact ⟨hidle, by omega⟩

theorem cap_and_inv {n : ℕ} (hmax : 1 ≤ tp.maxConn) (h : Runs.Reach (step tp) (init n) s) :
    s.Inv ∧ s.Cap tp :=
  ⟨h.inv (inv_init n) fun _ _ _ hs ha => inv_trans hs (trans_of_step ha),
    cap_of_reach (by omega) h⟩

/-- **Clients are turned away for want of room** in a run without late steps, and
    those are the runs in which nobody who has timed out is ever next to room. -/
theorem spent_iff {n : ℕ} (hmax : 1 ≤ tp.maxConn) {p : List (Pool × Action)}
    (h : Runs.Path (step tp) (init n) p s) :
    (∀ t ∈ Runs.visited p s, t.Spent tp) ↔ ∀ x ∈ p, ¬ x.1.Late tp x.2 := by
  refine h.visited_iff (J := fun s => s.Spent tp) (G := fun s => s.Spent tp)
    (C := fun s a => ¬ s.Late tp a) ?_
    (fun _ _ hS => hS) ?_ ?_
  · intro i hi
    cases client_init hi
  · intro s a t hr hS hL ha
    exact spent_of_step (cap_and_inv hmax hr).1 hS hL ha
  · intro s a t hr _ hL ha
    exact not_spent_of_late (cap_and_inv hmax hr).1 (cap_and_inv hmax hr).2 (not_not.1 hL) ha

end

end Pool

end SmtpProxy
