/-
  The number of connections of a transport is bounded by `maxConn`.

  The tests in `getAnIdleConn` compare `busy + noop` with `maxConn`, with `<`
  at first and `==` after a wait.  `Cap` is what makes both right: the three
  lists never exceed `maxConn`, and while a client is in `newConn` no list
  changes and there is room for one more.
-/
import SmtpProxy.Pool.Invariant

namespace SmtpProxy

open Placement

namespace Pool

/-- The number of connections in the three lists. -/
def size (s : Pool) : ℤ := s.busyConns.count + s.idleConns.count + s.noopConns.count

/-- The sockets open to the server: those of the connections, and that of a
    `newConn` under way. -/
def sockets (s : Pool) : ℕ :=
  s.conns.countP Conn.sockOpen + s.clients.countP ClientPc.inNewConn

structure Cap (tp : Tp) (s : Pool) : Prop where
  bound : s.size ≤ tp.maxConn
  room : ∀ i, s.mtx = some (.client i) → s.size < tp.maxConn

section
variable {tp : Tp} {s t : Pool} {a : Action}

theorem size_congr (h : ∀ st, t.list st = s.list st) : t.size = s.size := by
  have hb := h .busy
  have hi := h .idle
  have hn := h .noop
  simp only [list] at hb hi hn
  rw [size, size, hb, hi, hn]

theorem size_move {c : ℕ} {a b : Status} (hab : a ≠ b)
    (h : ∀ st, t.list st = (s.move c a b).list st) : t.size = s.size := by
  rw [size_congr h]
  cases a <;> cases b <;> first
    | exact absurd rfl hab
    | (simp only [size, move, dllistMvNode, setList, list, updConn, dllistDelete, dllistAppend]
       omega)

theorem Cap.congr (h : Cap tp s) (hl : t.size = s.size) (hm : ∀ i, t.mtx = some (.client i) →
    s.mtx = some (.client i)) : Cap tp t where
  bound := by rw [hl]; exact h.bound
  room i hi := by rw [hl]; exact h.room i (hm i hi)

theorem cap_trans (hI : s.Inv) (hC : Cap tp s) (h : Trans tp s a t) : Cap tp t := by
  cases h with
  | client | use | wait | giveUp | bcast | signal | noop | noopWait | noopStart | noopBcast | close
  | endSignal | endBcast | abort | resetToday =>
    exact hC.congr (size_congr fun st => by cases st <;> rfl) fun i hi => hi
  | @take i c =>
    exact hC.congr (size_move (c := c) (a := .idle) (b := .busy) (by simp)
      fun st => by cases st <;> rfl) fun i hi => hi
  | start hm hi hw hidle hroom =>
    -- the lists are not full: there is no idle connection, and the others are not `maxConn`
    have hroom' : s.size < tp.maxConn := by
      have := hC.bound
      simp only [size] at *
      omega
    exact ⟨hC.bound, fun _ _ => hroom'⟩
  | connFailed =>
    exact hC.congr (size_congr fun st => by cases st <;> rfl) fun i hi => by cases hi
  | @connAdded i hi =>
    have hroom := hC.room i ((hI.lock (.client i)).2 ⟨_, hi, rfl⟩)
    refine ⟨?_, fun j hj => by cases hj⟩
    simp only [size, connAdded, setClient, dllistAppend] at *
    omega
  | @release i c =>
    exact hC.congr (size_move (c := c) (a := .busy) (b := .idle) (by simp)
      fun st => by cases st <;> rfl) fun i hi => hi
  | @retire i c r =>
    exact hC.congr (size_move (c := c) (a := .busy) (b := .noop) (by simp)
      fun st => by cases r <;> cases st <;> rfl) fun i hi => by cases r <;> exact hi
  | @noopTake c =>
    exact hC.congr (size_move (c := c) (a := .idle) (b := .noop) (by simp)
      fun st => by cases st <;> rfl) fun i hi => hi
  | @endTake c =>
    exact hC.congr (size_move (c := c) (a := .idle) (b := .noop) (by simp)
      fun st => by cases st <;> rfl) fun i hi => by cases hi
  | endStart =>
    exact hC.congr (size_congr fun st => by cases st <;> rfl) fun i hi => by cases hi
  | @noopBack c =>
    exact hC.congr (size_move (c := c) (a := .noop) (b := .idle) (by simp)
      fun st => by cases st <;> rfl) fun i hi => hi
  | closeHeld | delete =>
    refine ⟨?_, fun j hj => by cases hj⟩
    have := hC.bound
    simp only [size, endConnDelete, setPc, updConn, setList, dllistDelete] at *
    omega
  | @flags ns ms =>
    obtain ⟨hm₁, -, -, hl₁⟩ := setEndFlags_frame ms s
    obtain ⟨hm₂, -, -, hl₂⟩ := setEndFlags_frame ns (setEndFlags ms s)
    refine hC.congr (size_congr fun st => ?_) fun i hi => ?_
    · rw [← hl₁, ← hl₂]; cases st <;> rfl
    · exact (hm₂.trans hm₁).symm.trans hi

theorem cap_of_reach {n : ℕ} (hmax : 0 ≤ tp.maxConn) (h : Runs.Reach (step tp) (init n) s) :
    Cap tp s := by
  have hboth : s.Inv ∧ Cap tp s := by
    refine h.inv (I := fun s => s.Inv ∧ Cap tp s)
      ⟨inv_init n, hmax, fun i hi => by cases hi⟩ fun _ _ _ hs ha => ?_
    have ht := trans_of_step ha
    exact ⟨inv_trans hs.1 ht, cap_trans hs.1 hs.2 ht⟩
  exact hboth.2

/-- Open connections are in the lists. -/
theorem conns_le_size (hI : s.Inv) : (s.conns.countP Conn.sockOpen : ℤ) ≤ s.size := by
  have hplaced : ∀ (c : ℕ) (k : Conn), s.conns[c]? = some k → k.sockOpen →
      ∃ a ∈ [Status.busy, .idle, .noop], s.place c = some a := by
    intro c k hk hs
    have hin : k.pc.inPool := by
      have := (hI.conn c k hk).sock hs
      revert this
      cases k.pc <;> simp [NoopPc.hasSock, NoopPc.inPool]
    exact ⟨k.status, by cases k.status <;> simp, place_eq hk hin⟩
  have hle := hI.lists.countP_le hplaced
  have hb := hI.lists.count .busy
  have hi := hI.lists.count .idle
  have hn := hI.lists.count .noop
  simp only [List.flatMap_cons, List.flatMap_nil, List.append_nil, List.length_append] at hle
  simp only [size, list] at *
  omega

/-- At most one client is in `newConn`, and then the lock is held by it. -/
theorem newConn_le_one (hI : s.Inv) : s.clients.countP ClientPc.inNewConn ≤ 1 :=
  countP_le_one fun i j pi pj hi hj hpi hpj => by
    have := hI.lock.unique (locking_client hi hpi) (locking_client hj hpj)
    exact Thread.client.inj this

theorem sockets_le (hI : s.Inv) (hC : Cap tp s) : (s.sockets : ℤ) ≤ tp.maxConn := by
  have hconns := conns_le_size hI
  have hone := newConn_le_one hI
  have hbound := hC.bound
  unfold sockets
  by_cases h0 : s.clients.countP ClientPc.inNewConn = 0
  · omega
  · obtain ⟨pc, hpc, hin⟩ := List.countP_pos_iff.1 (Nat.pos_of_ne_zero h0)
    obtain ⟨i, hi⟩ := List.mem_iff_getElem?.1 hpc
    have hroom := hC.room i ((hI.lock (.client i)).2 ⟨pc, hi, hin⟩)
    omega

/-- **The pool is bounded and in order.**  Every connection that `endConn` has
    not deleted is in the list of its status and in no other, the counters of
    the lists are their lengths, and neither the lists nor the open sockets
    exceed `maxConn`. -/
theorem pool_bounded {n : ℕ} (hmax : 1 ≤ tp.maxConn) (h : Runs.Reach (step tp) (init n) s) :
    (∀ (c : ℕ) (k : Conn), s.conns[c]? = some k → k.pc.inPool →
      ∀ st, (s.list st).nodes.count c = if st = k.status then 1 else 0) ∧
    (∀ st, ∀ c ∈ (s.list st).nodes, ∃ k, s.conns[c]? = some k ∧ k.pc.inPool) ∧
    (∀ st, (s.list st).count = (s.list st).nodes.length) ∧
    s.busyConns.count + s.idleConns.count + s.noopConns.count ≤ tp.maxConn ∧
    s.sockets ≤ tp.maxConn := by
  have hI := inv_of_reach h
  have hC := cap_of_reach (by omega) h
  refine ⟨fun c k hk hin st => ?_, fun st c hc => ?_, hI.lists.count, hC.bound, sockets_le hI hC⟩
  · have hmem := hI.lists.mem st c
    rw [place_eq hk hin] at hmem
    rw [(hI.lists.nodup st).count]
    simp only [hmem, Option.some.injEq, eq_comm]
  · obtain ⟨k, hk, hin, -⟩ := place_eq_some.1 ((hI.lists.mem st c).1 hc)
    exact ⟨k, hk, hin⟩

end

/-- A client gets the only connection. -/
theorem pool_bounded_one : ∃ s : Pool, s.busyConns.count = 1 ∧ s.sockets ≤ tpPlain.maxConn := by
  have h : Runs.exec (step tpPlain) (init 1) (List.replicate 4 (.client 0 true)) =
      some ⟨none, ⟨[0], 1⟩, ⟨[], 0⟩, ⟨[], 0⟩, 0, 0, 0, [Conn.added], [.got 0 true], .out⟩ := rfl
  exact ⟨_, rfl, (pool_bounded (by decide) (Runs.Reach.refl.of_exec h)).2.2.2.2⟩

end Pool

end SmtpProxy
