/-
  The invariant of the pool (`Inv`): it holds in every reachable state, for
  every transport and every number of clients (`inv_of_reach`).

  The lists shelve the connections by status, the busy connections are owned
  by clients, the lock records the thread in `newConn` or in `endConn`, each
  connection is in order (`Conn.Ok`), and `waiting` counts the clients in the
  wait loop.  Each part has a lemma for what a step does to it.
-/
import SmtpProxy.Lib.Placement
import SmtpProxy.Pool.Trans

namespace SmtpProxy

open Placement

/-- What a connection is while its thread is at `k.pc`. -/
structure Conn.Ok (k : Conn) : Prop where
  owns : k.pc.owns → k.status = .noop
  flagged : k.pc.inPool → k.pc.owns = false → k.status = .noop → k.endFlag
  sock : k.sockOpen → k.pc.hasSock

theorem Conn.added_ok : Conn.added.Ok where
  owns := by intro h; cases h
  flagged := by intro _ _ h; cases h
  sock := by intro _; rfl

/-- The thread of a connection goes to a place of the same kind. -/
theorem Conn.Ok.congr {k k' : Conn} (h : k.Ok) (hs : k'.status = k.status)
    (he : k'.endFlag = k.endFlag) (ho : k'.sockOpen = k.sockOpen)
    (hi : k'.pc.inPool = k.pc.inPool) (hw : k'.pc.owns = k.pc.owns)
    (hd : k'.pc.hasSock = k.pc.hasSock) : k'.Ok where
  owns := by rw [hs, hw]; exact h.owns
  flagged := by rw [hs, he, hi, hw]; exact h.flagged
  sock := by rw [ho, hd]; exact h.sock

namespace Pool

/-- The thread is in a section that does I/O with the lock held. -/
def Locking (s : Pool) : Thread → Prop
  | .client i => ∃ pc, s.clients[i]? = some pc ∧ pc.inNewConn
  | .noop c => ∃ k, s.conns[c]? = some k ∧ k.pc = .closeHeld

def Lists (s : Pool) : Prop :=
  Shelved (fun st => (s.list st).nodes) (fun st => (s.list st).count) s.place

def Holders (s : Pool) : Prop := Owned (fun c => s.place c = some .busy) s.holds

structure Inv (s : Pool) : Prop where
  lists : s.Lists
  holders : s.Holders
  lock : Locked s.mtx s.Locking
  conn : ∀ (c : ℕ) (k : Conn), s.conns[c]? = some k → k.Ok
  signalled : ∀ (c : ℕ) (k : Conn), s.conns[c]? = some k → k.pc = .wait → k.status = .noop → s.Pending c
  waiting : s.waiting = s.clients.countP ClientPc.inWait

section
variable {tp : Tp} {s t : Pool} {a : Action}

/-! ## Lists and owners -/

/-- What a step does to the lists and to the clients' connections. -/
inductive Shift (s t : Pool) : Prop
  | quiet (hl : ∀ st, t.list st = s.list st) (hp : ∀ d, t.place d = s.place d)
      (hh : ∀ j, t.holds j = s.holds j)
  | take (i c : ℕ) (hi : s.holds i = none) (hc : s.place c = some .idle)
      (hl : ∀ st, t.list st = (s.move c .idle .busy).list st)
      (hp : ∀ d, t.place d = (s.move c .idle .busy).place d)
      (hh : ∀ j, t.holds j = if j = i then some c else s.holds j)
  | add (i : ℕ) (hi : s.holds i = none) (ht : t = s.connAdded i)
      (hh : ∀ j, t.holds j = if j = i then some s.conns.length else s.holds j)
  | give (i c : ℕ) (b : Status) (hi : s.holds i = some c) (hb : b ≠ .busy)
      (hl : ∀ st, t.list st = (s.move c .busy b).list st)
      (hp : ∀ d, t.place d = (s.move c .busy b).place d)
      (hh : ∀ j, t.holds j = if j = i then none else s.holds j)
  | shift (c : ℕ) (a b : Status) (ha : a ≠ .busy) (hb : b ≠ .busy) (hab : a ≠ b)
      (hc : s.place c = some a) (hl : ∀ st, t.list st = (s.move c a b).list st)
      (hp : ∀ d, t.place d = (s.move c a b).place d) (hh : ∀ j, t.holds j = s.holds j)
  | drop (c : ℕ) (hc : s.place c = some .noop)
      (hl : ∀ st, t.list st = if st = .noop then dllistDelete s.noopConns c else s.list st)
      (hp : ∀ d, t.place d = if d = c then none else s.place d)
      (hh : ∀ j, t.holds j = s.holds j)

theorem Lists.shift (hL : s.Lists) (hH : s.Holders) (h : Shift s t) : t.Lists := by
  have move : ∀ c a b, s.place c = some a → a ≠ b →
      (∀ st, t.list st = (s.move c a b).list st) →
      (∀ d, t.place d = (s.move c a b).place d) → t.Lists := by
    intro c a b hc hab hl hp
    unfold Lists at *
    convert hL.move hc hab using 1
    · ext1 st
      rw [hl, move_list _ _ _ _ _ hab]
      split
      · rfl
      · split <;> rfl
    · ext1 st
      rw [hl, move_list _ _ _ _ _ hab]
      split
      · rfl
      · split <;> rfl
    · ext1 d
      rw [hp, place_move, hc, Function.update_apply]
      rfl
  cases h with
  | quiet hl hp hh =>
    unfold Lists at *
    simpa only [hl, funext hp] using hL
  | take i c hi hc hl hp hh => exact move c .idle .busy hc (by simp) hl hp
  | add i hi ht hh =>
    subst ht
    have hnone : s.place s.conns.length = none := by simp [place]
    unfold Lists at *
    convert hL.put hnone (b := .busy) using 1
    · ext1 st
      cases st <;> rfl
    · ext1 st
      cases st <;> rfl
    · ext1 d
      rw [Function.update_apply, place_connAdded]
  | give i c b hi hb hl hp hh =>
    exact move c .busy b ((hH.busy_iff c).2 ⟨i, hi⟩) hb.symm hl hp
  | shift c a b ha hb hab hc hl hp hh => exact move c a b hc hab hl hp
  | drop c hc hl hp hh =>
    unfold Lists at *
    convert hL.remove hc using 1
    · ext1 st
      rw [hl]
      cases st <;> rfl
    · ext1 st
      rw [hl]
      cases st <;> rfl
    · ext1 d
      rw [hp, Function.update_apply]

theorem Holders.shift (hH : s.Holders) (h : Shift s t) : t.Holders := by
  cases h with
  | quiet hl hp hh => exact Owned.congr hH (fun d => by rw [hp]) hh
  | take i c hi hc hl hp hh =>
    refine Owned.acquire hH (by simp [hc]) hi (fun d => ?_) hh
    rw [hp, place_move]
    split
    · subst d; simp [hc]
    · simp [*]
  | add i hi ht hh =>
    subst ht
    refine Owned.acquire hH (by simp [place]) hi (fun d => ?_) hh
    rw [place_connAdded]
    split <;> simp [*]
  | give i c b hi hb hl hp hh =>
    refine Owned.give hH hi (fun d => ?_) hh
    rw [hp, place_move]
    split
    · subst d; cases s.place c <;> simp [hb]
    · simp [*]
  | shift c a b ha hb hab hc hl hp hh =>
    refine Owned.congr hH (fun d => ?_) hh
    rw [hp, place_move]
    split
    · subst d; simp [hc, ha, hb]
    · rfl
  | drop c hc hl hp hh =>
    refine Owned.congr hH (fun d => ?_) hh
    rw [hp]
    split
    · subst d; simp [hc]
    · rfl

theorem inPool_top {pc : NoopPc} (h : pc = .top ∨ pc = .woken) : pc.inPool = true := by
  rcases h with rfl | rfl <;> rfl

theorem place_eq {c : ℕ} {k : Conn} (hk : s.conns[c]? = some k) (h : k.pc.inPool) :
    s.place c = some k.status := place_eq_some.2 ⟨k, hk, h, rfl⟩

theorem holds_eq {i : ℕ} {pc : ClientPc} (hi : s.clients[i]? = some pc) :
    s.holds i = pc.conn? := by rw [holds, hi]; rfl

theorem holds_congr {j : ℕ} (h : t.clients = s.clients) : t.holds j = s.holds j := by
  unfold holds; rw [h]

theorem holds_same {i j : ℕ} {pc : ClientPc} (pc' : ClientPc) (hi : s.clients[i]? = some pc)
    (ht : t.clients = s.clients.set i pc') (h : pc'.conn? = pc.conn?) : t.holds j = s.holds j := by
  rw [holds_set _ hi ht]
  split
  · subst j; rw [holds_eq hi, h]
  · rfl

theorem holds_wake {j : ℕ} : s.broadcastIdle.holds j = s.holds j := by
  unfold holds
  rw [broadcastIdle_clients, List.getElem?_map]
  cases s.clients[j]? with
  | none => rfl
  | some pc => exact conn?_wake pc

theorem shift_of_trans (hI : s.Inv) (h : Trans tp s a t) : Shift s t := by
  have hown : ∀ {c : ℕ} {k : Conn}, s.conns[c]? = some k → k.pc.owns → s.place c = some .noop :=
    fun {c k} hk ho => by
      have hin : k.pc.inPool := by revert ho; cases k.pc <;> simp [NoopPc.owns, NoopPc.inPool]
      rw [place_eq hk hin, (hI.conn c k hk).owns ho]
  cases h with
  | client hi h =>
    exact .quiet (fun st => by cases st <;> rfl) (fun d => place_congr rfl)
      fun j => holds_same _ hi rfl h.conn
  | use hi hc h hf =>
    refine .quiet (fun st => by cases st <;> rfl) (fun d => place_modify rfl fun k _ => ?_)
      fun j => holds_same _ hi rfl h.conn
    exact ⟨(hf k).status, by rw [(hf k).pc]⟩
  | @take i c pc w hm hi hw hc =>
    refine .take i c ?_ ((hI.lists.mem .idle c).1 (List.mem_of_head? hc))
      (fun st => by cases st <;> rfl) (fun d => place_congr rfl) fun j => ?_
    · rw [holds_eq hi]
      rcases hw with ⟨rfl, -⟩ | ⟨rfl, -⟩ <;> rfl
    · exact holds_set (.got c false) hi rfl
  | start hm hi hw | wait hm hi hw =>
    refine .quiet (fun st => by cases st <;> rfl) (fun d => place_congr rfl)
      fun j => holds_same _ hi rfl ?_
    rcases hw with ⟨rfl, -⟩ | ⟨rfl, -⟩ <;> rfl
  | giveUp hm hi =>
    exact .quiet (fun st => by cases st <;> rfl) (fun d => place_congr rfl)
      fun j => holds_same _ hi rfl rfl
  | @connFailed i pc hi h =>
    refine .quiet (fun st => by cases st <;> rfl) (fun d => place_congr rfl)
      fun j => holds_same _ hi rfl ?_
    cases pc <;> first | rfl | cases h
  | @connAdded i hi =>
    refine .add i (by rw [holds_eq hi]; rfl) rfl fun j => ?_
    exact holds_set (.got s.conns.length true) hi rfl
  | @release i c hm hi =>
    refine .give i c .idle (by rw [holds_eq hi]; rfl) (by simp) (fun st => by cases st <;> rfl)
      (fun d => place_congr rfl) fun j => ?_
    exact holds_set (.bcast c) hi rfl
  | @retire i c r hm hi =>
    refine .give i c .noop (by rw [holds_eq hi]; rfl) (by simp)
      (fun st => by cases r <;> cases st <;> rfl) (fun d => ?_) fun j => ?_
    · have hflag : ∀ d, (s.updConn c fun k => { k with endFlag := true }).place d = s.place d :=
        fun d => place_modify rfl fun k _ => ⟨rfl, rfl⟩
      refine Eq.trans (b := ((s.updConn c fun k => { k with endFlag := true }).move c .busy
        .noop).place d) (by cases r <;> exact place_congr rfl) ?_
      rw [place_move, place_move, hflag, hflag]
    · exact holds_set (.signal c r) hi (by cases r <;> rfl)
  | @bcast i c hi =>
    refine .quiet (fun st => by cases st <;> rfl) (fun d => place_congr rfl) fun j => ?_
    have hi' : s.broadcastIdle.clients[i]? = some (.bcast c) := get_broadcastIdle hi rfl
    exact (holds_same (.signal c true) hi' rfl rfl).trans holds_wake
  | signal hi =>
    refine .quiet (fun st => by cases st <;> rfl) (fun d => place_modify rfl fun k _ => ⟨rfl, ?_⟩)
      fun j => holds_same _ hi rfl rfl
    dsimp only
    split <;> simp [*, NoopPc.inPool]
  | @noop c k pc f hk h hf =>
    refine .quiet (fun st => by cases st <;> rfl) (fun d => place_modify rfl fun k' hk' => ?_)
      fun j => holds_congr rfl
    obtain rfl := Option.some.inj (hk.symm.trans hk')
    exact ⟨(hf k).status, by rw [(hf k).pc]; exact h.inPool⟩
  | noopWait hm hk hpc | noopStart hm hk hpc =>
    refine .quiet (fun st => by cases st <;> rfl) (fun d => place_setPc hk ?_)
      fun j => holds_congr rfl
    rw [inPool_top hpc]; rfl
  | @noopTake c k hm hk hpc hs | @endTake c k hm hk hpc hs =>
    refine .shift c .idle .noop (by simp) (by simp) (by simp) ?_
      (fun st => by cases st <;> rfl) (fun d => ?_) fun j => holds_congr rfl
    · rw [place_eq hk (inPool_top hpc), hs]
    · exact place_setPc (get_move hk) (inPool_top hpc).symm
  | endStart hm hk h =>
    refine .quiet (fun st => by cases st <;> rfl) (fun d => place_setPc hk ?_)
      fun j => holds_congr rfl
    rcases h with ⟨hpc, -⟩ | hpc
    · rw [inPool_top hpc]; rfl
    · rw [hpc]; rfl
  | @noopBack c k hm hk hpc =>
    refine .shift c .noop .idle (by simp) (by simp) (by simp) (hown hk (by rw [hpc]; rfl))
      (fun st => by cases st <;> rfl) (fun d => ?_) fun j => holds_congr rfl
    exact place_setPc (get_move hk) (by rw [hpc]; rfl)
  | noopBcast hk hpc | endBcast hk hpc =>
    refine .quiet (fun st => by cases st <;> rfl) (fun d => place_setPc hk ?_)
      fun j => (holds_congr rfl).trans holds_wake
    rw [hpc]; rfl
  | endSignal hk hpc =>
    refine .quiet (fun st => by cases st <;> rfl) (fun d => place_setPc hk ?_)
      fun j => holds_congr rfl
    rw [hpc]; rfl
  | @closeHeld c k hk hpc =>
    refine .drop c (hown hk (by rw [hpc]; rfl)) (fun st => by cases st <;> rfl) (fun d => ?_)
      fun j => holds_congr rfl
    rw [place_endConnDelete]
    congr 1
    exact place_modify rfl fun k _ => ⟨rfl, rfl⟩
  | close hk hpc =>
    refine .quiet (fun st => by cases st <;> rfl) (fun d => place_modify rfl fun k' hk' => ?_)
      fun j => holds_congr rfl
    obtain rfl := Option.some.inj (hk.symm.trans hk')
    exact ⟨rfl, by rw [hpc]; rfl⟩
  | @delete c k hm hk hpc =>
    exact .drop c (hown hk (by rw [hpc]; rfl)) (fun st => by cases st <;> rfl)
      (fun d => place_endConnDelete) fun j => holds_congr rfl
  | abort | resetToday =>
    exact .quiet (fun st => by cases st <;> rfl) (fun d => place_congr rfl) fun j => holds_congr rfl
  | @flags ns ms =>
    obtain ⟨-, hc₁, -, hl₁⟩ := setEndFlags_frame ms s
    obtain ⟨-, hc₂, -, hl₂⟩ := setEndFlags_frame ns (setEndFlags ms s)
    refine .quiet (fun st => ?_) (fun d => ?_) fun j => holds_congr (hc₂.trans hc₁)
    · rw [← hl₁, ← hl₂]; cases st <;> rfl
    · exact (place_congr rfl).trans ((place_setEndFlags _).trans (place_setEndFlags _))

/-! ## The lock -/

theorem locking_client {i : ℕ} {pc : ClientPc} (hi : s.clients[i]? = some pc)
    (h : pc.inNewConn) : s.Locking (.client i) := ⟨pc, hi, h⟩

theorem locking_set {i j : ℕ} {pc : ClientPc} (pc' : ClientPc) (hi : s.clients[i]? = some pc)
    (ht : t.clients = s.clients.set i pc') :
    t.Locking (.client j) ↔ if j = i then pc'.inNewConn = true else s.Locking (.client j) := by
  show (∃ pc, t.clients[j]? = some pc ∧ pc.inNewConn) ↔ _
  rw [ht, get_set hi]
  split
  · simp
  · rfl

theorem locking_same {i j : ℕ} {pc : ClientPc} (pc' : ClientPc) (hi : s.clients[i]? = some pc)
    (ht : t.clients = s.clients.set i pc') (h : pc'.inNewConn = pc.inNewConn) :
    t.Locking (.client j) ↔ s.Locking (.client j) := by
  rw [locking_set _ hi ht]
  split
  · subst j; simp [Locking, hi, h]
  · rfl

theorem locking_congr {j : ℕ} (ht : t.clients = s.clients) :
    t.Locking (.client j) ↔ s.Locking (.client j) := by
  show (∃ pc, t.clients[j]? = some pc ∧ pc.inNewConn) ↔ _
  rw [ht]; rfl

theorem locking_wake {j : ℕ} : s.broadcastIdle.Locking (.client j) ↔ s.Locking (.client j) := by
  show (∃ pc, s.broadcastIdle.clients[j]? = some pc ∧ pc.inNewConn) ↔
    ∃ pc, s.clients[j]? = some pc ∧ pc.inNewConn
  rw [broadcastIdle_clients, List.getElem?_map]
  cases s.clients[j]? with
  | none => simp
  | some pc => cases pc <;> simp [ClientPc.wake, ClientPc.inNewConn]

theorem locking_modify {c d : ℕ} {k : Conn} {f : Conn → Conn} (hk : s.conns[c]? = some k)
    (ht : t.conns = s.conns.modify c f) :
    t.Locking (.noop d) ↔ if d = c then (f k).pc = .closeHeld else s.Locking (.noop d) := by
  show (∃ k, t.conns[d]? = some k ∧ k.pc = .closeHeld) ↔ _
  rw [ht, get_modify]
  split
  · subst d; simp [hk]
  · rfl

theorem locking_modify_same {c d : ℕ} {f : Conn → Conn} (ht : t.conns = s.conns.modify c f)
    (hf : ∀ k, s.conns[c]? = some k → ((f k).pc = .closeHeld ↔ k.pc = .closeHeld)) :
    t.Locking (.noop d) ↔ s.Locking (.noop d) := by
  show (∃ k, t.conns[d]? = some k ∧ k.pc = .closeHeld) ↔
    ∃ k, s.conns[d]? = some k ∧ k.pc = .closeHeld
  rw [ht, get_modify]
  split
  · subst d
    cases hk : s.conns[c]? with
    | none => simp
    | some k => simp [hf k hk]
  · rfl

theorem locking_congr' {d : ℕ} (ht : t.conns = s.conns) :
    t.Locking (.noop d) ↔ s.Locking (.noop d) := by
  show (∃ k, t.conns[d]? = some k ∧ k.pc = .closeHeld) ↔ _
  rw [ht]; rfl

theorem lock_quiet (h : Locked s.mtx s.Locking) (hm : t.mtx = s.mtx)
    (hc : ∀ j, t.Locking (.client j) ↔ s.Locking (.client j))
    (hn : ∀ d, t.Locking (.noop d) ↔ s.Locking (.noop d)) : Locked t.mtx t.Locking := by
  rw [hm]
  exact h.congr fun u => by cases u with | client j => exact hc j | noop d => exact hn d

/-- A thread of a connection goes on, in or out of no section that keeps the lock. -/
theorem lock_modify (h : Locked s.mtx s.Locking) {c : ℕ} {k : Conn} {f : Conn → Conn}
    (hm : t.mtx = s.mtx) (hc : ∀ j, t.Locking (.client j) ↔ s.Locking (.client j))
    (hk : s.conns[c]? = some k) (ht : t.conns = s.conns.modify c f)
    (hf : (f k).pc = .closeHeld ↔ k.pc = .closeHeld) : Locked t.mtx t.Locking := by
  refine lock_quiet h hm hc fun d => locking_modify_same ht fun k' hk' => ?_
  obtain rfl := Option.some.inj (hk.symm.trans hk')
  exact hf

/-- A client takes the lock and keeps it. -/
theorem lock_client {i : ℕ} {pc : ClientPc} (pc' : ClientPc) (h : Locked none s.Locking)
    (hi : s.clients[i]? = some pc) (ht : t.clients = s.clients.set i pc') (hin : pc'.inNewConn)
    (hn : ∀ d, t.Locking (.noop d) ↔ s.Locking (.noop d)) : Locked (some (.client i)) t.Locking := by
  refine h.lock fun u => ?_
  cases u with
  | client j =>
    rw [locking_set pc' hi ht]
    split
    · simp [*]
    · simp [*]
  | noop d => exact (hn d).trans (by simp)

/-- A client that has kept the lock gives it back. -/
theorem unlock_client {i : ℕ} {pc : ClientPc} (pc' : ClientPc) (h : Locked s.mtx s.Locking)
    (hi : s.clients[i]? = some pc) (hin : pc.inNewConn) (ht : t.clients = s.clients.set i pc')
    (hout : pc'.inNewConn = false) (hn : ∀ d, t.Locking (.noop d) ↔ s.Locking (.noop d)) :
    Locked none t.Locking := by
  refine h.unlock (t := .client i) (locking_client hi hin) fun u => ?_
  cases u with
  | client j =>
    rw [locking_set pc' hi ht]
    split
    · simp [*]
    · simp [*]
  | noop d => exact (hn d).trans (by simp)

/-- The thread of a connection takes the lock and keeps it. -/
theorem lock_noop {c : ℕ} {k : Conn} {f : Conn → Conn} (h : Locked none s.Locking)
    (hk : s.conns[c]? = some k) (hc : t.clients = s.clients) (ht : t.conns = s.conns.modify c f)
    (hf : (f k).pc = .closeHeld) : Locked (some (.noop c)) t.Locking := by
  refine h.lock fun u => ?_
  cases u with
  | client j => exact (locking_congr hc).trans (by simp)
  | noop d =>
    rw [locking_modify hk ht]
    split
    · simp [*]
    · simp [*]

/-- The thread of a connection that has kept the lock gives it back. -/
theorem unlock_noop {c : ℕ} {k : Conn} {f : Conn → Conn} (h : Locked s.mtx s.Locking)
    (hk : s.conns[c]? = some k) (hpc : k.pc = .closeHeld) (hc : t.clients = s.clients)
    (ht : t.conns = s.conns.modify c f) (hf : (f k).pc ≠ .closeHeld) : Locked none t.Locking := by
  refine h.unlock (t := .noop c) ⟨k, hk, hpc⟩ fun u => ?_
  cases u with
  | client j => exact (locking_congr hc).trans (by simp)
  | noop d =>
    rw [locking_modify hk ht]
    split
    · simp [*]
    · simp [*]

theorem locking_setEndFlags {cs : List ℕ} {d : ℕ} :
    (setEndFlags cs s).Locking (.noop d) ↔ s.Locking (.noop d) := by
  show (∃ k, (setEndFlags cs s).conns[d]? = some k ∧ k.pc = .closeHeld) ↔
    ∃ k, s.conns[d]? = some k ∧ k.pc = .closeHeld
  rw [get_setEndFlags]
  cases s.conns[d]? with
  | none => simp
  | some k => by_cases h : d ∈ cs <;> simp [h]

theorem lock_trans (hI : s.Inv) (h : Trans tp s a t) : Locked t.mtx t.Locking := by
  have hL := hI.lock
  cases h with
  | client hi h =>
    exact lock_quiet hL rfl (fun j => locking_same _ hi rfl h.inNewConn) fun d => locking_congr' rfl
  | use hi hc h hf =>
    refine lock_quiet hL rfl (fun j => locking_same _ hi rfl h.inNewConn) fun d => ?_
    exact locking_modify_same rfl fun k _ => by rw [(hf k).pc]
  | @take i c pc w hm hi hw =>
    refine lock_quiet hL rfl (fun j => locking_same (.got c false) hi rfl ?_) fun d => ?_
    · rcases hw with ⟨rfl, -⟩ | ⟨rfl, -⟩ <;> rfl
    · exact locking_modify_same (move_conns ..) fun k _ => Iff.rfl
  | @start i pc w hm hi hw =>
    rw [hm] at hL
    exact lock_client .connect hL hi rfl rfl fun d => locking_congr' rfl
  | wait hm hi hw =>
    refine lock_quiet hL rfl (fun j => locking_same _ hi rfl ?_) fun d => locking_congr' rfl
    rcases hw with ⟨rfl, -⟩ | ⟨rfl, -⟩ <;> rfl
  | giveUp hm hi =>
    exact lock_quiet hL rfl (fun j => locking_same _ hi rfl rfl) fun d => locking_congr' rfl
  | @connFailed i pc hi h =>
    exact unlock_client (.ret false) hL hi h rfl rfl fun d => locking_congr' rfl
  | @connAdded i hi =>
    refine unlock_client (.got s.conns.length true) hL hi rfl rfl rfl fun d => ?_
    show (∃ k, (s.conns ++ [Conn.added])[d]? = some k ∧ k.pc = .closeHeld) ↔ _
    rw [get_added]
    split
    · subst d; simp [Locking, Conn.added]
    · simp [Locking]
  | @release i c hm hi =>
    refine lock_quiet hL rfl (fun j => locking_same (.bcast c) hi rfl rfl) fun d => ?_
    exact locking_modify_same (move_conns ..) fun k _ => Iff.rfl
  | @retire i c r hm hi =>
    refine lock_quiet hL (by cases r <;> rfl)
      (fun j => locking_same (.signal c r) hi (by cases r <;> rfl) rfl) fun d => ?_
    exact locking_modify_same (retireConn_conns ..) fun k _ => Iff.rfl
  | @bcast i c hi =>
    refine lock_quiet hL rfl (fun j => ?_) fun d => locking_congr' rfl
    have hi' : s.broadcastIdle.clients[i]? = some (.bcast c) := get_broadcastIdle hi rfl
    exact (locking_same (.signal c true) hi' rfl rfl).trans locking_wake
  | signal hi =>
    refine lock_quiet hL rfl (fun j => locking_same _ hi rfl rfl) fun d => ?_
    refine locking_modify_same rfl fun k _ => ?_
    dsimp only
    split <;> simp [*]
  | @noop c k pc f hk h hf =>
    refine lock_modify hL rfl (fun j => locking_congr rfl) hk rfl ?_
    simp [(hf k).pc, h.lock]
  | noopWait hm hk hpc | noopStart hm hk hpc =>
    refine lock_modify hL rfl (fun j => locking_congr rfl) hk rfl ?_
    rcases hpc with hpc | hpc <;> simp [hpc]
  | noopTake hm hk hpc =>
    refine lock_modify hL rfl (fun j => locking_congr rfl) hk (setPc_move_conns ..) ?_
    rcases hpc with hpc | hpc <;> simp [hpc]
  | noopBack hm hk hpc =>
    exact lock_modify hL rfl (fun j => locking_congr rfl) hk (setPc_move_conns ..) (by simp [hpc])
  | @endTake c k hm hk hpc hs =>
    rw [hm] at hL
    exact lock_noop hL hk rfl endConnLocked_move_conns rfl
  | @endStart c k hm hk h =>
    rw [hm] at hL
    exact lock_noop (f := fun k => { k with pc := .closeHeld }) hL hk rfl rfl rfl
  | noopBcast hk hpc | endBcast hk hpc =>
    exact lock_modify hL rfl (fun j => (locking_congr rfl).trans locking_wake) hk rfl (by simp [hpc])
  | endSignal hk hpc | close hk hpc =>
    exact lock_modify hL rfl (fun j => locking_congr rfl) hk rfl (by simp [hpc])
  | @closeHeld c k hk hpc =>
    exact unlock_noop hL hk hpc rfl closeHeld_conns nofun
  | @delete c k hm hk hpc =>
    exact lock_modify (f := fun k => { k with pc := .destroy }) hL hm.symm
      (fun j => locking_congr rfl) hk rfl (by simp [hpc])
  | abort | resetToday =>
    exact lock_quiet hL rfl (fun j => locking_congr rfl) fun d => locking_congr' rfl
  | @flags ns ms =>
    obtain ⟨hm₁, hc₁, -, -⟩ := setEndFlags_frame ms s
    obtain ⟨hm₂, hc₂, -, -⟩ := setEndFlags_frame ns (setEndFlags ms s)
    refine lock_quiet hL (hm₂.trans hm₁) (fun j => locking_congr (hc₂.trans hc₁)) fun d => ?_
    exact Iff.trans (locking_setEndFlags (s := setEndFlags ms s)) locking_setEndFlags

/-! ## The connections -/

/-- Only the connection `c` changes. -/
theorem ok_modify {c : ℕ} {f : Conn → Conn} (h : ∀ (d : ℕ) (k : Conn), s.conns[d]? = some k → k.Ok)
    (ht : t.conns = s.conns.modify c f) (hf : ∀ k, s.conns[c]? = some k → k.Ok → (f k).Ok) :
    ∀ (d : ℕ) (k : Conn), t.conns[d]? = some k → k.Ok := by
  intro d k' hk'
  rw [ht, get_modify] at hk'
  split at hk'
  · subst d
    obtain ⟨k, hk, rfl⟩ := Option.map_eq_some_iff.1 hk'
    exact hf k hk (h c k hk)
  · exact h d k' hk'

theorem ok_modify_at {c : ℕ} {k : Conn} {f : Conn → Conn}
    (h : ∀ (d : ℕ) (k : Conn), s.conns[d]? = some k → k.Ok) (hk : s.conns[c]? = some k)
    (ht : t.conns = s.conns.modify c f) (hf : k.Ok → (f k).Ok) :
    ∀ (d : ℕ) (k : Conn), t.conns[d]? = some k → k.Ok := by
  refine ok_modify h ht fun k' hk' hok => ?_
  obtain rfl := Option.some.inj (hk.symm.trans hk')
  exact hf hok

/-- A connection that is not its thread's goes to a list that is not. -/
theorem ok_move {c : ℕ} {b st : Status} (h : ∀ (d : ℕ) (k : Conn), s.conns[d]? = some k → k.Ok)
    (hc : s.place c = some st) (hs : st ≠ .noop) (hb : b ≠ .noop)
    (ht : t.conns = s.conns.modify c fun k => { k with status := b }) :
    ∀ (d : ℕ) (k : Conn), t.conns[d]? = some k → k.Ok := by
  obtain ⟨k, hk, -, hst⟩ := place_eq_some.1 hc
  refine ok_modify_at h hk ht fun hok => ⟨fun ho => ?_, fun _ _ hn => absurd hn hb, hok.sock⟩
  exact absurd (hst.symm.trans (hok.owns ho)) hs

theorem ok_trans (hI : s.Inv) (h : Trans tp s a t) :
    ∀ (d : ℕ) (k : Conn), t.conns[d]? = some k → k.Ok := by
  have hO := hI.conn
  cases h with
  | client | start | wait | giveUp | connFailed | bcast | abort | resetToday => exact hO
  | use hi hc h hf =>
    refine ok_modify hO rfl fun k _ hk => ?_
    obtain ⟨h₁, h₂, h₃, h₄⟩ := hf k
    exact hk.congr h₁ h₂ h₃ (by rw [h₄]) (by rw [h₄]) (by rw [h₄])
  | @take i c pc w hm hi hw hc =>
    have hplace : s.place c = some .idle := (hI.lists.mem .idle c).1 (List.mem_of_head? hc)
    exact ok_move hO hplace (by simp) (by simp) (move_conns ..)
  | connAdded hi =>
    intro d k hk
    replace hk : (s.conns ++ [Conn.added])[d]? = some k := hk
    rw [get_added] at hk
    split at hk
    · obtain rfl := Option.some.inj hk
      exact Conn.added_ok
    · exact hO d k hk
  | @release i c hm hi =>
    have hplace : s.place c = some .busy := (hI.holders.busy_iff c).2 ⟨i, holds_eq hi⟩
    exact ok_move hO hplace (by simp) (by simp) (move_conns ..)
  | retire hm hi =>
    exact ok_modify hO (retireConn_conns ..) fun k _ hok =>
      ⟨fun _ => rfl, fun _ _ _ => rfl, hok.sock⟩
  | signal hi =>
    refine ok_modify hO rfl fun k _ hok => ?_
    by_cases hw : k.pc = .wait
    · exact hok.congr rfl rfl rfl (by simp [hw, NoopPc.inPool]) (by simp [hw, NoopPc.owns])
        (by simp [hw, NoopPc.hasSock])
    · rw [if_neg hw]; exact hok
  | @noop c k pc f hk h hf =>
    refine ok_modify_at hO hk rfl fun hok => ?_
    obtain ⟨h₁, h₂, h₃, h₄⟩ := hf k
    exact hok.congr h₁ h₂ h₃ (by rw [h₄]; exact h.inPool) (by rw [h₄]; exact h.owns)
      (by rw [h₄]; exact h.hasSock)
  | noopWait hm hk hpc h =>
    refine ok_modify_at hO hk rfl fun hok => ?_
    refine ⟨fun ho => (by cases ho), fun _ _ hs => ?_, fun _ => rfl⟩
    rcases h with h | ⟨h, -⟩ <;> simp [h] at hs
  | noopStart hm hk hpc hs =>
    exact ok_modify_at hO hk rfl fun hok =>
      ⟨fun _ => hs, fun _ ho => (by cases ho), fun _ => rfl⟩
  | noopTake hm hk hpc =>
    exact ok_modify hO (setPc_move_conns ..) fun k' hk' hok =>
      ⟨fun _ => rfl, fun _ ho => (by cases ho), fun _ => rfl⟩
  | endTake hm hk hpc hs =>
    exact ok_modify hO endConnLocked_move_conns fun k' hk' hok =>
      ⟨fun _ => rfl, fun _ ho => (by cases ho), fun _ => rfl⟩
  | @endStart c k hm hk h =>
    have hs : k.status = .noop := by
      rcases h with ⟨-, hs⟩ | hpc
      · exact hs
      · exact (hO c k hk).owns (by rw [hpc]; rfl)
    refine ok_modify_at hO hk (f := fun k => { k with pc := .closeHeld }) rfl fun hok => ?_
    exact ⟨fun _ => hs, fun _ ho => (by cases ho), fun _ => rfl⟩
  | noopBack hm hk hpc =>
    exact ok_modify hO (setPc_move_conns ..) fun k' hk' hok =>
      ⟨fun ho => (by cases ho), fun _ _ hs => (by cases hs), fun _ => rfl⟩
  | noopBcast hk hpc | endSignal hk hpc | endBcast hk hpc =>
    refine ok_modify_at hO hk rfl fun hok => ?_
    exact hok.congr rfl rfl rfl (by rw [hpc]; rfl) (by rw [hpc]; rfl) (by rw [hpc]; rfl)
  | closeHeld hk hpc =>
    exact ok_modify hO closeHeld_conns fun k' hk' hok =>
      ⟨fun ho => (by cases ho), fun hi => (by cases hi), fun ho => (by cases ho)⟩
  | @close c k hk hpc =>
    have hs : k.status = .noop := (hO c k hk).owns (by rw [hpc]; rfl)
    exact ok_modify_at hO hk rfl fun hok =>
      ⟨fun _ => hs, fun _ ho => (by cases ho), fun ho => (by cases ho)⟩
  | @delete c k hm hk hpc =>
    refine ok_modify_at hO hk (f := fun k => { k with pc := .destroy }) rfl fun hok => ?_
    refine ⟨fun ho => (by cases ho), fun hi => (by cases hi), fun ho => ?_⟩
    have := hok.sock ho
    simp [hpc, NoopPc.hasSock] at this
  | flags =>
    intro d k hk
    obtain ⟨k₂, hk₂, rfl⟩ := Option.map_eq_some_iff.1 ((get_setEndFlags ..).symm.trans hk)
    obtain ⟨k₁, hk₁, rfl⟩ := Option.map_eq_some_iff.1 ((get_setEndFlags ..).symm.trans hk₂)
    have hflag : ∀ (p : Prop) [Decidable p] (k : Conn), k.Ok →
        (if p then { k with endFlag := true } else k).Ok := by
      intro p _ k hk
      split
      · exact ⟨hk.owns, fun _ _ _ => rfl, hk.sock⟩
      · exact hk
    exact hflag _ _ (hflag _ _ (hO d k₁ hk₁))

/-! ## Pending signals -/

theorem pending_set {i c : ℕ} {pc : ClientPc} (pc' : ClientPc) (hi : s.clients[i]? = some pc)
    (ht : t.clients = s.clients.set i pc') (h : pc.pending? = some c → pc'.pending? = some c)
    (hp : s.Pending c) : t.Pending c := by
  obtain ⟨j, pj, hj, hc⟩ := hp
  by_cases hji : j = i
  · subst hji
    obtain rfl := Option.some.inj (hi.symm.trans hj)
    exact ⟨j, pc', by rw [ht, get_set hi, if_pos rfl], h hc⟩
  · exact ⟨j, pj, by rw [ht, get_set hi, if_neg hji, hj], hc⟩

theorem pending_congr {c : ℕ} (ht : t.clients = s.clients) (hp : s.Pending c) : t.Pending c := by
  unfold Pending at *; rwa [ht]

theorem pending_wake {c : ℕ} (hp : s.Pending c) : s.broadcastIdle.Pending c := by
  obtain ⟨j, pj, hj, hc⟩ := hp
  refine ⟨j, pj.wake, by rw [broadcastIdle_clients, List.getElem?_map, hj]; rfl, ?_⟩
  cases pj <;> exact hc

/-- A signal to come stays to come, but for the one that is sent. -/
theorem pending_trans {c : ℕ} (h : Trans tp s a t) (hp : s.Pending c) : t.Pending c ∨
    ∃ (i : ℕ) (r : Bool), s.clients[i]? = some (.signal c r) ∧
      t = (s.signalConn c).setClient i (.ret r) := by
  cases h with
  | client hi h | use hi _ h =>
    exact Or.inl (pending_set _ hi rfl (fun hc => h.pending.trans hc) hp)
  | take hm hi hw | start hm hi hw | wait hm hi hw =>
    refine Or.inl (pending_set _ hi rfl (fun hc => ?_) hp)
    rcases hw with ⟨rfl, -⟩ | ⟨rfl, -⟩ <;> cases hc
  | giveUp hm hi | connAdded hi | release hm hi =>
    exact Or.inl (pending_set _ hi rfl (fun hc => by cases hc) hp)
  | connFailed hi h =>
    refine Or.inl (pending_set _ hi rfl (fun hc => ?_) hp)
    rw [ClientPc.pending_newConn h] at hc
    cases hc
  | @retire i d r hm hi =>
    exact Or.inl (pending_set (.signal d r) hi (by cases r <;> rfl) (fun hc => by cases hc) hp)
  | @bcast i d hi =>
    have hi' : s.broadcastIdle.clients[i]? = some (.bcast d) := get_broadcastIdle hi rfl
    exact Or.inl (pending_set _ hi' rfl (fun hc => hc) (pending_wake hp))
  | @signal i d r hi =>
    by_cases hd : d = c
    · subst hd; exact Or.inr ⟨i, r, hi, rfl⟩
    · refine Or.inl (pending_set _ hi rfl (fun hc => absurd (Option.some.inj hc) hd) hp)
  | noopBcast | endBcast => exact Or.inl (pending_congr rfl (pending_wake hp))
  | @flags ns ms =>
    obtain ⟨-, hc₁, -, -⟩ := setEndFlags_frame ms s
    obtain ⟨-, hc₂, -, -⟩ := setEndFlags_frame ns (setEndFlags ms s)
    exact Or.inl (pending_congr (hc₂.trans hc₁) hp)
  | _ => exact Or.inl (pending_congr rfl hp)

theorem wait_modify {c d : ℕ} {f : Conn → Conn} {k' : Conn} {st : Status}
    (ht : t.conns = s.conns.modify c f) (hk' : t.conns[d]? = some k')
    (hf : ∀ k, s.conns[c]? = some k → (f k).pc = .wait → (f k).status = st →
      k.pc = .wait ∧ k.status = st)
    (hw : k'.pc = .wait) (hs : k'.status = st) :
    ∃ k, s.conns[d]? = some k ∧ k.pc = .wait ∧ k.status = st := by
  rw [ht, get_modify] at hk'
  split at hk'
  · subst d
    obtain ⟨k, hk, rfl⟩ := Option.map_eq_some_iff.1 hk'
    exact ⟨k, hk, hf k hk hw hs⟩
  · exact ⟨k', hk', hw, hs⟩

/-- A connection that is not busy and whose thread is blocked was so before, or
    has just been given back, or gives way to a waiting client. -/
theorem wait_of_trans {d : ℕ} {k' : Conn} {st : Status} (h : Trans tp s a t)
    (hk' : t.conns[d]? = some k') (hw : k'.pc = .wait) (hs : k'.status = st) (hst : st ≠ .busy) :
    (∃ k, s.conns[d]? = some k ∧ k.pc = .wait ∧ k.status = st) ∨ t.Pending d ∨
      st = .idle ∧ 0 < t.waiting := by
  cases h with
  | client | start | wait | giveUp | connFailed | bcast | abort | resetToday =>
    exact Or.inl ⟨k', hk', hw, hs⟩
  | use hi hc h hf =>
    refine Or.inl (wait_modify rfl hk' (fun k _ h₁ h₂ => ?_) hw hs)
    exact ⟨(hf k).pc ▸ h₁, (hf k).status ▸ h₂⟩
  | take =>
    exact Or.inl (wait_modify (f := fun k => { k with status := .busy }) rfl hk'
      (fun k _ _ h₂ => absurd h₂.symm hst) hw hs)
  | connAdded hi =>
    replace hk' : (s.conns ++ [Conn.added])[d]? = some k' := hk'
    rw [get_added] at hk'
    split at hk'
    · obtain rfl := Option.some.inj hk'
      cases hw
    · exact Or.inl ⟨k', hk', hw, hs⟩
  | @release i c hm hi =>
    by_cases hd : d = c
    · subst hd
      exact Or.inr (Or.inl ⟨i, .bcast d, (get_set hi).trans (if_pos rfl), rfl⟩)
    · rw [show (s.releaseConn i c).conns = s.conns.modify c _ from rfl, get_modify, if_neg hd] at hk'
      exact Or.inl ⟨k', hk', hw, hs⟩
  | @retire i c r hm hi =>
    by_cases hd : d = c
    · subst hd
      refine Or.inr (Or.inl ⟨i, .signal d r, ?_, rfl⟩)
      rw [show (s.retireConn i d r).clients = s.clients.set i (.signal d r) by cases r <;> rfl,
        get_set hi, if_pos rfl]
    · rw [retireConn_conns, get_modify, if_neg hd] at hk'
      exact Or.inl ⟨k', hk', hw, hs⟩
  | signal hi =>
    refine Or.inl (wait_modify (f := fun k => { k with pc := if k.pc = .wait then .woken else k.pc })
      rfl hk' (fun k _ h₁ h₂ => ⟨?_, h₂⟩) hw hs)
    dsimp only at h₁
    split at h₁
    · cases h₁
    · exact h₁
  | @noop c k pc f hk h hf =>
    refine Or.inl (wait_modify rfl hk' (fun k _ h₁ _ => ?_) hw hs)
    exact absurd ((hf k).pc.symm.trans h₁) h.run.2.2
  | @noopWait c k hm hk hpc h =>
    by_cases hd : d = c
    · subst hd
      rw [setPc, updConn_conns, get_modify, if_pos rfl, hk] at hk'
      obtain rfl := Option.some.inj hk'
      rcases h with h | ⟨h, hwait⟩
      · exact absurd (hs.symm.trans h) hst
      · exact Or.inr (Or.inr ⟨hs.symm.trans h, hwait⟩)
    · rw [setPc, updConn_conns, get_modify, if_neg hd] at hk'
      exact Or.inl ⟨k', hk', hw, hs⟩
  | noopStart | endStart | noopBcast | close | delete | endSignal | endBcast =>
    exact Or.inl (wait_modify rfl hk' (fun k _ h₁ _ => by cases h₁) hw hs)
  | noopTake | noopBack =>
    exact Or.inl (wait_modify (setPc_move_conns ..) hk' (fun k _ h₁ _ => by cases h₁) hw hs)
  | endTake =>
    exact Or.inl (wait_modify endConnLocked_move_conns hk' (fun k _ h₁ _ => by cases h₁) hw hs)
  | closeHeld => exact Or.inl (wait_modify closeHeld_conns hk' (fun k _ h₁ _ => by cases h₁) hw hs)
  | flags =>
    obtain ⟨k₂, hk₂, rfl⟩ := Option.map_eq_some_iff.1 ((get_setEndFlags ..).symm.trans hk')
    obtain ⟨k₁, hk₁, rfl⟩ := Option.map_eq_some_iff.1 ((get_setEndFlags ..).symm.trans hk₂)
    refine Or.inl ⟨k₁, hk₁, ?_, ?_⟩
    · rw [← hw]; split <;> split <;> rfl
    · rw [← hs]; split <;> split <;> rfl

/-- A thread that is blocked after a step was not signalled by it. -/
theorem pending_of_wait {d : ℕ} {k k' : Conn} (h : Trans tp s a t) (hk : s.conns[d]? = some k)
    (hkw : k.pc = .wait) (hk' : t.conns[d]? = some k') (hw : k'.pc = .wait) (hp : s.Pending d) :
    t.Pending d := by
  rcases pending_trans h hp with hp | ⟨i, r, -, rfl⟩
  · exact hp
  · rw [setClient_conns, signalConn, updConn_conns, get_modify, if_pos rfl, hk] at hk'
    obtain rfl := Option.some.inj hk'
    simp [hkw] at hw

theorem signalled_trans (hI : s.Inv) (h : Trans tp s a t) (d : ℕ) (k' : Conn)
    (hk' : t.conns[d]? = some k') (hw : k'.pc = .wait) (hs : k'.status = .noop) : t.Pending d := by
  rcases wait_of_trans h hk' hw hs (by simp) with ⟨k, hk, hkw, hks⟩ | hp | ⟨hne, -⟩
  · exact pending_of_wait h hk hkw hk' hw (hI.signalled d k hk hkw hks)
  · exact hp
  · cases hne

/-! ## The waiting clients -/

theorem count_set {i : ℕ} {pc pc' : ClientPc} (hi : s.clients[i]? = some pc) :
    ((s.clients.set i pc').countP ClientPc.inWait : ℤ) =
      s.clients.countP ClientPc.inWait - (if pc.inWait then 1 else 0) +
        if pc'.inWait then 1 else 0 := by
  obtain ⟨hlt, rfl⟩ := List.getElem?_eq_some_iff.1 hi
  have hle : (if s.clients[i].inWait then 1 else 0) ≤ s.clients.countP ClientPc.inWait := by
    split
    · exact List.one_le_countP_iff.2 ⟨_, List.getElem_mem hlt, ‹_›⟩
    · exact Nat.zero_le _
  rw [List.countP_set hlt]
  split_ifs at * <;> omega

theorem count_wake : (s.clients.map ClientPc.wake).countP ClientPc.inWait =
    s.clients.countP ClientPc.inWait := by
  rw [List.countP_map]
  congr 1
  ext1 pc
  cases pc <;> rfl

theorem waiting_set {i : ℕ} {pc : ClientPc} (pc' : ClientPc) (hI : s.Inv) (hi : s.clients[i]? = some pc)
    (ht : t.clients = s.clients.set i pc')
    (hw : t.waiting = s.waiting - (if pc.inWait then 1 else 0) + if pc'.inWait then 1 else 0) :
    t.waiting = t.clients.countP ClientPc.inWait := by
  rw [hw, ht, count_set hi, hI.waiting]

theorem waiting_trans (hI : s.Inv) (h : Trans tp s a t) :
    t.waiting = t.clients.countP ClientPc.inWait := by
  have hW := hI.waiting
  cases h with
  | client hi h | use hi _ h =>
    refine waiting_set _ hI hi rfl ?_
    rw [h.inWait]
    show s.waiting = _
    omega
  | take hm hi hw | start hm hi hw | wait hm hi hw =>
    refine waiting_set _ hI hi rfl ?_
    rcases hw with ⟨rfl, rfl⟩ | ⟨rfl, rfl⟩ <;> simp [ClientPc.inWait, startConn]
  | giveUp hm hi => exact waiting_set _ hI hi rfl (by simp [ClientPc.inWait, Pool.giveUp])
  | connAdded hi | release hm hi =>
    exact waiting_set _ hI hi rfl (by simp [ClientPc.inWait, Pool.connAdded, releaseConn])
  | connFailed hi h =>
    refine waiting_set _ hI hi rfl ?_
    revert h
    cases ‹ClientPc› <;> simp [ClientPc.inNewConn, ClientPc.inWait, Pool.connFailed]
  | @retire i d r hm hi =>
    refine waiting_set (.signal d r) hI hi (by cases r <;> rfl) ?_
    cases r <;> simp [ClientPc.inWait, retireConn]
  | @bcast i d hi =>
    have hi' : s.broadcastIdle.clients[i]? = some (.bcast d) := get_broadcastIdle hi rfl
    show s.waiting = _
    rw [setClient_clients, count_set hi', broadcastIdle_clients, count_wake, hW]
    simp [ClientPc.inWait]
  | signal hi => exact waiting_set _ hI hi rfl (by simp [ClientPc.inWait, signalConn])
  | noopBcast | endBcast =>
    show s.waiting = ((s.clients.map ClientPc.wake).countP ClientPc.inWait : ℤ)
    rw [count_wake, hW]
  | @flags ns ms =>
    obtain ⟨-, hc₁, hw₁, -⟩ := setEndFlags_frame ms s
    obtain ⟨-, hc₂, hw₂, -⟩ := setEndFlags_frame ns (setEndFlags ms s)
    show (setEndFlags ns (setEndFlags ms s)).waiting =
      ((setEndFlags ns (setEndFlags ms s)).clients.countP ClientPc.inWait : ℤ)
    rw [hw₂, hw₁, hc₂, hc₁, hW]
  | _ => exact hW

/-! ## Every reachable state -/

theorem client_init {n i : ℕ} {pc : ClientPc} (h : (init n).clients[i]? = some pc) : pc = .out :=
  List.eq_of_mem_replicate (List.mem_of_getElem? h)

theorem inv_init (n : ℕ) : (init n).Inv where
  lists := ⟨fun st => by cases st <;> exact List.nodup_nil, fun st => by cases st <;> rfl,
    fun st c => by cases st <;> simp [list, init, place]⟩
  holders := by
    have hno : ∀ i, (init n).holds i = none := fun i => by
      cases h : (init n).clients[i]? with
      | none => simp [holds, h]
      | some pc => rw [holds_eq h, client_init h]; rfl
    refine ⟨fun c => ?_, fun i j c hi => by simp [hno] at hi⟩
    rw [show (init n).place c = none from rfl]
    simp [hno]
  lock := by
    intro u
    cases u with
    | client i =>
      simp only [init, reduceCtorEq, false_iff]
      rintro ⟨pc, h, hpc⟩
      rw [client_init h] at hpc
      cases hpc
    | noop c => simp [init, Locking]
  conn := fun c k h => by simp [init] at h
  signalled := fun c k h => by simp [init] at h
  waiting := by
    have : (init n).clients.countP ClientPc.inWait = 0 := by
      rw [List.countP_eq_zero]
      intro pc h
      rw [List.eq_of_mem_replicate h]
      exact Bool.false_ne_true
    rw [this]; rfl

theorem inv_trans (hI : s.Inv) (h : Trans tp s a t) : t.Inv where
  lists := hI.lists.shift hI.holders (shift_of_trans hI h)
  holders := hI.holders.shift (shift_of_trans hI h)
  lock := lock_trans hI h
  conn := ok_trans hI h
  signalled := signalled_trans hI h
  waiting := waiting_trans hI h

/-- **The invariant holds in every reachable state.** -/
theorem inv_of_reach {n : ℕ} (h : Runs.Reach (step tp) (init n) s) : s.Inv :=
  h.inv (inv_init n) fun _ _ _ hI hs => inv_trans hI (trans_of_step hs)

/-! ## What the counters say of the clients -/

theorem conn?_eq_none {i : ℕ} {pc : ClientPc} (hI : s.Inv) (h : s.busyConns.count = 0)
    (hi : s.clients[i]? = some pc) : pc.conn? = none := by
  by_contra hne
  obtain ⟨c, hc⟩ := Option.ne_none_iff_exists'.1 hne
  have hmem := (hI.lists.mem .busy c).2 ((hI.holders.busy_iff c).2
    ⟨i, holds_eq_some.2 ⟨pc, hi, hc⟩⟩)
  have hcount := hI.lists.count .busy
  have hpos := List.length_pos_of_mem hmem
  have hzero : (s.list .busy).count = 0 := h
  omega

theorem inWait_eq_false {i : ℕ} {pc : ClientPc} (hI : s.Inv) (h : s.waiting = 0)
    (hi : s.clients[i]? = some pc) : pc.inWait = false := by
  by_contra hw
  have hpos := List.countP_pos_iff.2 ⟨pc, List.mem_of_getElem? hi, by simpa using hw⟩
  have hcount := hI.waiting
  omega

end

end Pool

end SmtpProxy
