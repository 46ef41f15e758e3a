/-
  What the invariants of the pool look at: where a connection is (`place`),
  which connection a client holds (`holds`) and has still to signal
  (`pending?`), who waits and who is in `newConn`; and how the updates of
  `Pool.State` change them.
-/
import Mathlib.Data.List.Count
import Mathlib.Data.List.Nodup
import SmtpProxy.Lib.Runs
import SmtpProxy.Pool.State

namespace SmtpProxy

/-- The connection a client has got from `getAnIdleConn` and not given back. -/
def ClientPc.conn? : ClientPc → Option ℕ
  | .got c _ | .rset c | .mail c | .sent c | .limit c | .pause c | .release c | .retire c _ => some c
  | _ => none

/-- The connection whose `cond` a client will signal. -/
def ClientPc.pending? : ClientPc → Option ℕ
  | .bcast c | .signal c _ => some c
  | _ => none

/-- In the wait loop of `getAnIdleConn`. -/
def ClientPc.inWait : ClientPc → Bool
  | .wait | .woken | .expired => true
  | _ => false

/-- In `newConn`. -/
def ClientPc.inNewConn : ClientPc → Bool
  | .connect | .setup => true
  | _ => false

theorem ClientPc.pending_newConn {pc : ClientPc} (h : pc.inNewConn) : pc.pending? = none := by
  revert h
  cases pc <;> simp [inNewConn, pending?]

/-- In `getAnIdleConn`, with a connection, or before a broadcast. -/
def ClientPc.engaged : ClientPc → Bool
  | .out | .signal _ _ | .ret _ => false
  | _ => true

/-- `dllistDelete` has not been done yet by `endConn`. -/
def NoopPc.inPool : NoopPc → Bool
  | .destroy | .endSignal | .endBcast | .exited => false
  | _ => true

/-- From `idle -> noop` on, the connection is the thread's own. -/
def NoopPc.owns : NoopPc → Bool
  | .count | .noop | .relock | .closeHeld | .close | .delete => true
  | _ => false

/-- The connection has not been closed yet by `endConn`. -/
def NoopPc.hasSock : NoopPc → Bool
  | .delete | .destroy | .endSignal | .endBcast | .exited => false
  | _ => true

/-- In the wait of `abortTpConns` on `endCond`. -/
def AbortPc.awaitsEnd : AbortPc → Bool
  | .waitEnd | .wokenEnd => true
  | _ => false

namespace Pool

/-- The status of a connection in the pool. -/
def place (s : Pool) (c : ℕ) : Option Status :=
  s.conns[c]?.bind fun k => if k.pc.inPool then some k.status else none

/-- The connection held by the client `i`. -/
def holds (s : Pool) (i : ℕ) : Option ℕ := s.clients[i]?.bind ClientPc.conn?

/-- A signal of the `cond` of `c` is still to come. -/
def Pending (s : Pool) (c : ℕ) : Prop :=
  ∃ (i : ℕ) (pc : ClientPc), s.clients[i]? = some pc ∧ pc.pending? = some c

theorem place_eq_some {s : Pool} {c : ℕ} {st : Status} :
    s.place c = some st ↔ ∃ k, s.conns[c]? = some k ∧ k.pc.inPool ∧ k.status = st := by
  unfold place
  constructor
  · intro h
    obtain ⟨k, hk, h⟩ := Option.bind_eq_some_iff.1 h
    split at h
    · exact ⟨k, hk, ‹_›, Option.some.inj h⟩
    · cases h
  · rintro ⟨k, hk, hp, rfl⟩
    simp [hk, hp]

theorem holds_eq_some {s : Pool} {i c : ℕ} :
    s.holds i = some c ↔ ∃ pc, s.clients[i]? = some pc ∧ pc.conn? = some c :=
  Option.bind_eq_some_iff

/-! ## Frame

Each update leaves the other fields as they are. -/

section
variable (s : Pool) (i c d : ℕ) (pc : ClientPc) (f : Conn → Conn) (a b st : Status) (l : Dllist)

@[simp] theorem setClient_mtx : (s.setClient i pc).mtx = s.mtx := rfl
@[simp] theorem setClient_waiting : (s.setClient i pc).waiting = s.waiting := rfl
@[simp] theorem setClient_conns : (s.setClient i pc).conns = s.conns := rfl
@[simp] theorem setClient_clients : (s.setClient i pc).clients = s.clients.set i pc := rfl
@[simp] theorem setClient_abort : (s.setClient i pc).abort = s.abort := rfl
@[simp] theorem setClient_list : (s.setClient i pc).list st = s.list st := by cases st <;> rfl

@[simp] theorem updConn_mtx : (s.updConn c f).mtx = s.mtx := rfl
@[simp] theorem updConn_waiting : (s.updConn c f).waiting = s.waiting := rfl
@[simp] theorem updConn_conns : (s.updConn c f).conns = s.conns.modify c f := rfl
@[simp] theorem updConn_clients : (s.updConn c f).clients = s.clients := rfl
@[simp] theorem updConn_abort : (s.updConn c f).abort = s.abort := rfl
@[simp] theorem updConn_list : (s.updConn c f).list st = s.list st := by cases st <;> rfl

@[simp] theorem setList_mtx : (s.setList a l).mtx = s.mtx := by cases a <;> rfl
@[simp] theorem setList_waiting : (s.setList a l).waiting = s.waiting := by cases a <;> rfl
@[simp] theorem setList_conns : (s.setList a l).conns = s.conns := by cases a <;> rfl
@[simp] theorem setList_clients : (s.setList a l).clients = s.clients := by cases a <;> rfl
@[simp] theorem setList_abort : (s.setList a l).abort = s.abort := by cases a <;> rfl
@[simp] theorem setList_list :
    (s.setList a l).list st = if st = a then l else s.list st := by cases a <;> cases st <;> rfl

@[simp] theorem move_mtx : (s.move c a b).mtx = s.mtx := by simp [move, dllistMvNode]
@[simp] theorem move_waiting : (s.move c a b).waiting = s.waiting := by simp [move, dllistMvNode]
@[simp] theorem move_clients : (s.move c a b).clients = s.clients := by simp [move, dllistMvNode]
@[simp] theorem move_abort : (s.move c a b).abort = s.abort := by simp [move, dllistMvNode]
@[simp] theorem move_conns :
    (s.move c a b).conns = s.conns.modify c fun k => { k with status := b } := by
  simp [move, dllistMvNode]

theorem move_list (hab : a ≠ b) : (s.move c a b).list st =
    if st = b then dllistAppend (s.list b) c
    else if st = a then dllistDelete (s.list a) c else s.list st := by
  simp [move, dllistMvNode, hab.symm]

@[simp] theorem broadcastIdle_mtx : s.broadcastIdle.mtx = s.mtx := rfl
@[simp] theorem broadcastIdle_waiting : s.broadcastIdle.waiting = s.waiting := rfl
@[simp] theorem broadcastIdle_conns : s.broadcastIdle.conns = s.conns := rfl
@[simp] theorem broadcastIdle_clients :
    s.broadcastIdle.clients = s.clients.map ClientPc.wake := rfl
@[simp] theorem broadcastIdle_list : s.broadcastIdle.list st = s.list st := by cases st <;> rfl

end

/-! ## The views after an update -/

section
variable {s : Pool} {i j c d : ℕ} {pc pc' : ClientPc} {f : Conn → Conn} {a b st : Status}

/-- Where there is an entry, it is set. -/
theorem get_set {α : Type*} {l : List α} {x y : α} (hi : l[i]? = some x) :
    (l.set i y)[j]? = if j = i then some y else l[j]? := by
  obtain ⟨hlt, -⟩ := List.getElem?_eq_some_iff.1 hi
  rw [List.getElem?_set]
  by_cases h : i = j
  · subst h; simp [hlt]
  · simp [h, Ne.symm h]

theorem get_modify :
    (s.conns.modify c f)[d]? = if d = c then s.conns[d]?.map f else s.conns[d]? := by
  rw [List.getElem?_modify]
  by_cases h : c = d
  · subst h; simp
  · simp [h, Ne.symm h]

theorem get_modify_self {t : Pool} {k : Conn} (hk : s.conns[c]? = some k)
    (ht : t.conns = s.conns.modify c f) : t.conns[c]? = some (f k) := by
  rw [ht, get_modify, if_pos rfl, hk]; rfl

/-- A client that does not wait stays where it is. -/
theorem get_broadcastIdle (hi : s.clients[i]? = some pc) (hpc : pc.wake = pc) :
    s.broadcastIdle.clients[i]? = some pc := by
  rw [broadcastIdle_clients, List.getElem?_map, hi, Option.map_some, hpc]

theorem holds_set (pc' : ClientPc) (hi : s.clients[i]? = some pc) {t : Pool}
    (ht : t.clients = s.clients.set i pc') :
    t.holds j = if j = i then pc'.conn? else s.holds j := by
  unfold holds
  rw [ht, get_set hi]
  split <;> rfl

theorem conn?_wake (pc : ClientPc) : pc.wake.conn? = pc.conn? := by cases pc <;> rfl

theorem place_congr {t : Pool} (h : t.conns = s.conns) : t.place c = s.place c := by
  unfold place; rw [h]

/-- An update that keeps the status and the presence of every connection. -/
theorem place_modify {t : Pool} (ht : t.conns = s.conns.modify c f)
    (hf : ∀ k, s.conns[c]? = some k → (f k).status = k.status ∧ (f k).pc.inPool = k.pc.inPool) :
    t.place d = s.place d := by
  unfold place
  rw [ht, get_modify]
  split
  · subst d
    cases hk : s.conns[c]? with
    | none => rfl
    | some k => simp [(hf k hk).1, (hf k hk).2]
  · rfl

theorem get_move {k : Conn} (hk : s.conns[c]? = some k) :
    (s.move c a b).conns[c]? = some { k with status := b } := by
  rw [move_conns, get_modify, if_pos rfl, hk]; rfl

theorem place_move : (s.move c a b).place d =
    if d = c then (s.place c).map fun _ => b else s.place d := by
  unfold place
  rw [move_conns, get_modify]
  split
  · subst d
    cases hk : s.conns[c]? with
    | none => rfl
    | some k => simp only [Option.map_some, Option.bind_some]; split <;> rfl
  · rfl

theorem modify_modify (l : List Conn) (f g : Conn → Conn) :
    (l.modify c f).modify c g = l.modify c fun k => g (f k) := by
  ext1 d
  simp only [List.getElem?_modify]
  cases l[d]? <;> by_cases h : c = d <;> simp [h]

theorem setPc_move_conns (p : NoopPc) : ((s.move c a b).setPc c p).conns =
    s.conns.modify c fun k => { k with status := b, pc := p } := by
  rw [setPc, updConn_conns, move_conns, modify_modify]

theorem endConnLocked_move_conns : ((s.move c a b).endConnLocked c).conns =
    s.conns.modify c fun k => { k with status := b, pc := .closeHeld } := by
  rw [endConnLocked, setPc, updConn_conns]
  show (s.move c a b).conns.modify c _ = _
  rw [move_conns, modify_modify]

theorem retireConn_conns (r : Bool) : (s.retireConn i c r).conns =
    s.conns.modify c fun k => { k with status := .noop, endFlag := true } := by
  rw [retireConn, setClient_conns, move_conns, updConn_conns, modify_modify]
  cases r <;> rfl

theorem closeHeld_conns :
    ((s.updConn c fun k => { k with sockOpen := false }).endConnDelete c).conns =
      s.conns.modify c fun k => { k with sockOpen := false, pc := .destroy } := by
  rw [endConnDelete, setPc, updConn_conns, setList_conns, updConn_conns, modify_modify]

theorem place_setPc {k : Conn} {p : NoopPc} (hk : s.conns[c]? = some k)
    (h : p.inPool = k.pc.inPool) : (s.setPc c p).place d = s.place d := by
  refine place_modify rfl fun k' hk' => ?_
  obtain rfl := Option.some.inj (hk.symm.trans hk')
  exact ⟨rfl, h⟩

theorem place_endConnDelete :
    (s.endConnDelete c).place d = if d = c then none else s.place d := by
  unfold place
  rw [show (s.endConnDelete c).conns = s.conns.modify c fun k => { k with pc := .destroy } from rfl,
    get_modify]
  split
  · subst d
    cases s.conns[c]? <;> rfl
  · rfl

theorem get_added {k : Conn} :
    (s.conns ++ [k])[d]? = if d = s.conns.length then some k else s.conns[d]? := by
  rw [List.getElem?_append]
  split
  · rw [if_neg (by omega)]
  · split
    · subst d; simp
    · rw [List.getElem?_eq_none (by simp; omega), List.getElem?_eq_none (by omega)]

theorem place_connAdded :
    (s.connAdded i).place d = if d = s.conns.length then some .busy else s.place d := by
  unfold place
  rw [show (s.connAdded i).conns = s.conns ++ [Conn.added] from rfl, get_added]
  split <;> rfl

theorem get_setEndFlags : ∀ (cs : List ℕ) (s : Pool) (d : ℕ), (setEndFlags cs s).conns[d]? =
    s.conns[d]?.map fun k => if d ∈ cs then { k with endFlag := true } else k
  | [], s, d => by cases h : s.conns[d]? <;> simp [setEndFlags, h]
  | c :: cs, s, d => by
    rw [setEndFlags, get_setEndFlags cs, updConn_conns, get_modify]
    by_cases h : d = c
    · subst h
      cases s.conns[d]? with
      | none => simp
      | some k => by_cases hd : d ∈ cs <;> simp [hd]
    · simp [h]

/-- Setting the flags changes the flags only. -/
theorem setEndFlags_frame : ∀ (cs : List ℕ) (s : Pool), (setEndFlags cs s).mtx = s.mtx ∧
    (setEndFlags cs s).clients = s.clients ∧ (setEndFlags cs s).waiting = s.waiting ∧
    ∀ st, (setEndFlags cs s).list st = s.list st
  | [], s => ⟨rfl, rfl, rfl, fun _ => rfl⟩
  | c :: cs, s => by
    obtain ⟨h₁, h₂, h₃, h₄⟩ := setEndFlags_frame cs (s.updConn c fun k => { k with endFlag := true })
    exact ⟨h₁, h₂, h₃, fun st => (h₄ st).trans (by cases st <;> rfl)⟩

theorem place_setEndFlags (cs : List ℕ) : (setEndFlags cs s).place d = s.place d := by
  unfold place
  rw [get_setEndFlags]
  cases s.conns[d]? with
  | none => rfl
  | some k => simp only [Option.map_some, Option.bind_some]; split <;> rfl

end

end Pool

end SmtpProxy
