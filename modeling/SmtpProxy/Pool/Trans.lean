/-
  What a step of the pool can do (`Trans`), with the guards it has passed, and
  nothing else: `trans_of_step`.  Steps that move a thread without a change
  that the invariants see are taken together (`ClientPc.Same`, `NoopPc.Same`).
  `gets_of_step`: what a client in `getAnIdleConn` can do.
-/
import SmtpProxy.Pool.Views

namespace SmtpProxy

/-- The places of a client that differ in its local progress only. -/
structure ClientPc.Same (pc pc' : ClientPc) : Prop where
  conn : pc'.conn? = pc.conn?
  pending : pc'.pending? = pc.pending?
  inWait : pc'.inWait = pc.inWait
  inNewConn : pc'.inNewConn = pc.inNewConn
  engaged : pc.engaged → pc'.engaged

/-- The places of a `connNOOP` thread that differ in its local progress only. -/
structure NoopPc.Same (pc pc' : NoopPc) : Prop where
  inPool : pc'.inPool = pc.inPool
  owns : pc'.owns = pc.owns
  hasSock : pc'.hasSock = pc.hasSock
  lock : pc ≠ .closeHeld ∧ pc' ≠ .closeHeld
  run : pc ≠ .exited ∧ pc' ≠ .exited ∧ pc' ≠ .wait

/-- The parts of a connection that only the locked sections change. -/
structure Conn.Same (k k' : Conn) : Prop where
  status : k'.status = k.status
  endFlag : k'.endFlag = k.endFlag
  sockOpen : k'.sockOpen = k.sockOpen
  pc : k'.pc = k.pc

namespace Pool

/-- What the action `a` can do to the pool `s`. -/
inductive Trans (tp : Tp) (s : Pool) (a : Action) : Pool → Prop
  | client {i : ℕ} {pc pc' : ClientPc} (hi : s.clients[i]? = some pc) (h : pc.Same pc') :
      Trans tp s a (s.setClient i pc')
  | use {i c : ℕ} {pc pc' : ClientPc} {f : Conn → Conn} (hi : s.clients[i]? = some pc)
      (hc : pc.conn? = some c) (h : pc.Same pc') (hf : ∀ k : Conn, k.Same (f k)) :
      Trans tp s a ((s.updConn c f).setClient i pc')
  | take {i c : ℕ} {pc : ClientPc} {w : ℤ} (hm : s.mtx = none) (hi : s.clients[i]? = some pc)
      (hw : pc = .call ∧ w = s.waiting ∨ pc = .woken ∧ w = s.waiting - 1)
      (hc : s.idleConns.nodes.head? = some c) (ha : ∃ ok, a = .client i ok) :
      Trans tp s a (({ s with waiting := w }.move c .idle .busy).setClient i (.got c false))
  | start {i : ℕ} {pc : ClientPc} {w : ℤ} (hm : s.mtx = none) (hi : s.clients[i]? = some pc)
      (hw : pc = .call ∧ w = s.waiting ∨ pc = .woken ∧ w = s.waiting - 1)
      (hidle : s.idleConns.count = 0)
      (hroom : s.busyConns.count + s.noopConns.count ≠ tp.maxConn) :
      Trans tp s a ({ s with waiting := w }.startConn i)
  | wait {i : ℕ} {pc : ClientPc} {w : ℤ} (hm : s.mtx = none) (hi : s.clients[i]? = some pc)
      (hw : pc = .call ∧ w = s.waiting + 1 ∨ pc = .woken ∧ w = s.waiting)
      (hidle : s.idleConns.count = 0)
      (hfull : s.busyConns.count + s.noopConns.count = tp.maxConn) (ha : ∃ ok, a = .client i ok) :
      Trans tp s a ({ s with waiting := w }.setClient i .wait)
  | giveUp {i : ℕ} (hm : s.mtx = none) (hi : s.clients[i]? = some .expired)
      (ha : ∃ ok, a = .client i ok) :
      Trans tp s a (s.giveUp i)
  | connFailed {i : ℕ} {pc : ClientPc} (hi : s.clients[i]? = some pc) (h : pc.inNewConn)
      (ha : a = .client i false) :
      Trans tp s a (s.connFailed i)
  | connAdded {i : ℕ} (hi : s.clients[i]? = some .setup) : Trans tp s a (s.connAdded i)
  | release {i c : ℕ} (hm : s.mtx = none) (hi : s.clients[i]? = some (.release c)) :
      Trans tp s a (s.releaseConn i c)
  | retire {i c : ℕ} {r : Bool} (hm : s.mtx = none) (hi : s.clients[i]? = some (.retire c r)) :
      Trans tp s a (s.retireConn i c r)
  | bcast {i c : ℕ} (hi : s.clients[i]? = some (.bcast c)) :
      Trans tp s a (s.broadcastIdle.setClient i (.signal c true))
  | signal {i c : ℕ} {r : Bool} (hi : s.clients[i]? = some (.signal c r)) :
      Trans tp s a ((s.signalConn c).setClient i (.ret r))
  | noop {c : ℕ} {k : Conn} {pc : NoopPc} {f : Conn → Conn} (hk : s.conns[c]? = some k)
      (h : k.pc.Same pc) (hf : ∀ k : Conn, Conn.Same { k with pc := pc } (f k)) :
      Trans tp s a (s.updConn c f)
  | noopWait {c : ℕ} {k : Conn} (hm : s.mtx = none) (hk : s.conns[c]? = some k)
      (hpc : k.pc = .top ∨ k.pc = .woken)
      (h : k.status = .busy ∨ k.status = .idle ∧ 0 < s.waiting) :
      Trans tp s a (s.setPc c .wait)
  | noopStart {c : ℕ} {k : Conn} (hm : s.mtx = none) (hk : s.conns[c]? = some k)
      (hpc : k.pc = .top ∨ k.pc = .woken) (hs : k.status = .noop) (he : k.endFlag = false) :
      Trans tp s a (s.setPc c .count)
  | noopTake {c : ℕ} {k : Conn} (hm : s.mtx = none) (hk : s.conns[c]? = some k)
      (hpc : k.pc = .top ∨ k.pc = .woken) (hs : k.status = .idle) (he : k.endFlag = false) :
      Trans tp s a ((s.move c .idle .noop).setPc c .count)
  | endTake {c : ℕ} {k : Conn} (hm : s.mtx = none) (hk : s.conns[c]? = some k)
      (hpc : k.pc = .top ∨ k.pc = .woken) (hs : k.status = .idle) (he : k.endFlag = true) :
      Trans tp s a ((s.move c .idle .noop).endConnLocked c)
  | endStart {c : ℕ} {k : Conn} (hm : s.mtx = none) (hk : s.conns[c]? = some k)
      (h : (k.pc = .top ∨ k.pc = .woken) ∧ k.status = .noop ∨ k.pc = .relock)
      (he : k.endFlag = true) :
      Trans tp s a (s.endConnLocked c)
  | noopBack {c : ℕ} {k : Conn} (hm : s.mtx = none) (hk : s.conns[c]? = some k)
      (hpc : k.pc = .relock) (he : k.endFlag = false) :
      Trans tp s a ((s.move c .noop .idle).setPc c .bcast)
  | noopBcast {c : ℕ} {k : Conn} (hk : s.conns[c]? = some k) (hpc : k.pc = .bcast) :
      Trans tp s a (s.broadcastIdle.setPc c .sleep)
  | closeHeld {c : ℕ} {k : Conn} (hk : s.conns[c]? = some k) (hpc : k.pc = .closeHeld) :
      Trans tp s a ((s.updConn c fun k => { k with sockOpen := false }).endConnDelete c)
  | close {c : ℕ} {k : Conn} (hk : s.conns[c]? = some k) (hpc : k.pc = .close) :
      Trans tp s a (s.updConn c fun k => { k with sockOpen := false, pc := .delete })
  | delete {c : ℕ} {k : Conn} (hm : s.mtx = none) (hk : s.conns[c]? = some k)
      (hpc : k.pc = .delete) : Trans tp s a (s.endConnDelete c)
  | endSignal {c : ℕ} {k : Conn} (hk : s.conns[c]? = some k) (hpc : k.pc = .endSignal) :
      Trans tp s a (s.signalEnd.setPc c .endBcast)
  | endBcast {c : ℕ} {k : Conn} (hk : s.conns[c]? = some k) (hpc : k.pc = .endBcast) :
      Trans tp s a (s.broadcastIdle.setPc c .exited)
  | abort {pc : AbortPc} (h : pc = .waitIdle → s.busyConns.count ≠ 0 ∨ 0 < s.waiting)
      (hend : pc.awaitsEnd → s.abort.awaitsEnd) :
      Trans tp s a { s with abort := pc }
  | flags {ns ms : List ℕ} (hm : s.mtx = none) (hw : ¬ 0 < s.waiting) :
      Trans tp s a (setEndFlags ns (setEndFlags ms s)).endLoop
  | resetToday (hm : s.mtx = none) : Trans tp s a { s with todaySend := 0 }

theorem locked_eq_some {s t u : Pool} : s.locked t = some u ↔ s.mtx = none ∧ t = u := by
  unfold locked
  split <;> simp_all

section
variable {tp : Tp} {s t : Pool} {a : Action}

/-- What a client at `pc` can do with the lock in `getAnIdleConn`. -/
inductive Gets (tp : Tp) (s : Pool) (i : ℕ) (pc : ClientPc) : Pool → Prop
  | take {c : ℕ} {w : ℤ} (hw : pc = .call ∧ w = s.waiting ∨ pc = .woken ∧ w = s.waiting - 1)
      (hc : s.idleConns.nodes.head? = some c) :
      Gets tp s i pc (({ s with waiting := w }.move c .idle .busy).setClient i (.got c false))
  | start {w : ℤ} (hw : pc = .call ∧ w = s.waiting ∨ pc = .woken ∧ w = s.waiting - 1)
      (hidle : s.idleConns.count = 0)
      (hroom : s.busyConns.count + s.noopConns.count ≠ tp.maxConn) :
      Gets tp s i pc ({ s with waiting := w }.startConn i)
  | wait {w : ℤ} (hw : pc = .call ∧ w = s.waiting + 1 ∨ pc = .woken ∧ w = s.waiting)
      (hidle : s.idleConns.count = 0)
      (hfull : s.busyConns.count + s.noopConns.count = tp.maxConn) :
      Gets tp s i pc ({ s with waiting := w }.setClient i .wait)

theorem gets_waitLoop {i : ℕ} {pc : ClientPc} {w : ℤ}
    (hw : pc = .call ∧ w = s.waiting + 1 ∨ pc = .woken ∧ w = s.waiting)
    (h : ({ s with waiting := w } : Pool).waitLoop tp i = some t) : Gets tp s i pc t := by
  have hw' : pc = .call ∧ w - 1 = s.waiting ∨ pc = .woken ∧ w - 1 = s.waiting - 1 := by
    rcases hw with ⟨hpc, rfl⟩ | ⟨hpc, rfl⟩
    · exact Or.inl ⟨hpc, by omega⟩
    · exact Or.inr ⟨hpc, rfl⟩
  unfold waitLoop at h
  split at h
  · rename_i hfull
    obtain rfl := Option.some.inj h
    exact .wait hw hfull.1 hfull.2
  · rename_i hfull
    dsimp only at h hfull
    split at h
    · obtain ⟨c, hc, rfl⟩ := Option.map_eq_some_iff.1 h
      exact .take hw' hc
    · rename_i hidle
      obtain rfl := Option.some.inj h
      have hidle : s.idleConns.count = 0 := Classical.not_not.1 hidle
      exact .start hw' hidle fun hroom => hfull ⟨hidle, hroom⟩

theorem gets_getAnIdleConn {i : ℕ} (h : s.getAnIdleConn tp i = some t) : Gets tp s i .call t := by
  unfold getAnIdleConn at h
  split at h
  · obtain ⟨c, hc, rfl⟩ := Option.map_eq_some_iff.1 h
    exact .take (Or.inl ⟨rfl, rfl⟩) hc
  · rename_i hidle
    split at h
    · rename_i hroom
      obtain rfl := Option.some.inj h
      exact .start (Or.inl ⟨rfl, rfl⟩) (Classical.not_not.1 hidle) (Int.ne_of_lt hroom)
    · exact gets_waitLoop (Or.inl ⟨rfl, rfl⟩) h

theorem gets_of_step {i : ℕ} {ok : Bool} {pc : ClientPc} (hpc : pc = .call ∨ pc = .woken)
    (h : s.clientStep tp i ok pc = some t) : s.mtx = none ∧ Gets tp s i pc t := by
  rcases hpc with rfl | rfl
  · obtain ⟨u, hu, h⟩ := Option.bind_eq_some_iff.1 h
    obtain ⟨hm, rfl⟩ := locked_eq_some.1 h
    exact ⟨hm, gets_getAnIdleConn hu⟩
  · obtain ⟨u, hu, h⟩ := Option.bind_eq_some_iff.1 h
    obtain ⟨hm, rfl⟩ := locked_eq_some.1 h
    exact ⟨hm, gets_waitLoop (Or.inr ⟨rfl, rfl⟩) hu⟩

theorem trans_clientStep {i : ℕ} {ok : Bool} {pc : ClientPc} (hi : s.clients[i]? = some pc)
    (h : s.clientStep tp i ok pc = some t) : Trans tp s (.client i ok) t := by
  cases pc with
  | call | woken =>
    obtain ⟨hm, hg⟩ := gets_of_step (by simp) h
    cases hg with
    | take hw hc => exact .take hm hi hw hc ⟨ok, rfl⟩
    | start hw hidle hroom => exact .start hm hi hw hidle hroom
    | wait hw hidle hfull => exact .wait hm hi hw hidle hfull ⟨ok, rfl⟩
  | wait => cases h
  | expired =>
    obtain ⟨hm, rfl⟩ := locked_eq_some.1 h
    exact .giveUp hm hi ⟨ok, rfl⟩
  | connect =>
    obtain rfl := Option.some.inj h
    cases ok with
    | true => exact .client hi ⟨rfl, rfl, rfl, rfl, id⟩
    | false => exact .connFailed hi rfl rfl
  | setup =>
    obtain rfl := Option.some.inj h
    cases ok with
    | true => exact .connAdded hi
    | false => exact .connFailed hi rfl rfl
  | got c isNew =>
    obtain rfl := Option.some.inj h
    refine .use hi rfl ?_ fun k => ⟨rfl, rfl, rfl, rfl⟩
    split <;> exact ⟨rfl, rfl, rfl, rfl, id⟩
  | rset c | mail c =>
    obtain rfl := Option.some.inj h
    refine .client hi ?_
    split <;> exact ⟨rfl, rfl, rfl, rfl, id⟩
  | sent c =>
    obtain rfl := Option.some.inj h
    exact .use hi rfl ⟨rfl, rfl, rfl, rfl, id⟩ fun k => ⟨rfl, rfl, rfl, rfl⟩
  | limit c =>
    obtain ⟨k, -, rfl⟩ := Option.map_eq_some_iff.1 h
    refine .client hi ?_
    split
    · exact ⟨rfl, rfl, rfl, rfl, id⟩
    · split <;> exact ⟨rfl, rfl, rfl, rfl, id⟩
  | release c =>
    obtain ⟨hm, rfl⟩ := locked_eq_some.1 h
    exact .release hm hi
  | retire c r =>
    obtain ⟨hm, rfl⟩ := locked_eq_some.1 h
    exact .retire hm hi
  | bcast c =>
    obtain rfl := Option.some.inj h
    exact .bcast hi
  | signal c r =>
    obtain rfl := Option.some.inj h
    exact .signal hi
  | out =>
    obtain rfl := Option.some.inj h
    exact .client hi ⟨rfl, rfl, rfl, rfl, fun _ => rfl⟩
  | pause c | ret r =>
    obtain rfl := Option.some.inj h
    exact .client hi ⟨rfl, rfl, rfl, rfl, id⟩

theorem trans_noopTop {c : ℕ} {k : Conn} (hm : s.mtx = none) (hk : s.conns[c]? = some k)
    (hpc : k.pc = .top ∨ k.pc = .woken) : Trans tp s a (s.noopTop c k) := by
  unfold noopTop
  split
  · exact .noopWait hm hk hpc ‹_›
  · rename_i hw
    cases hs : k.status with
    | busy => exact absurd (Or.inl hs) hw
    | idle =>
      cases he : k.endFlag with
      | true => exact .endTake hm hk hpc hs he
      | false => exact .noopTake hm hk hpc hs he
    | noop =>
      cases he : k.endFlag with
      | true => exact .endStart hm hk (Or.inl ⟨hpc, hs⟩) he
      | false => exact .noopStart hm hk hpc hs he

theorem trans_noopStep {c : ℕ} {ok : Bool} {k : Conn} (hk : s.conns[c]? = some k)
    (h : s.noopStep tp c ok k = some t) : Trans tp s a t := by
  unfold noopStep at h
  have plain : ∀ {f : Conn → Conn} (pc : NoopPc), some (s.updConn c f) = some t → k.pc.Same pc →
      (∀ k : Conn, Conn.Same { k with pc := pc } (f k)) → Trans tp s a t := by
    intro f pc hf h₁ h₂
    obtain rfl := Option.some.inj hf
    exact .noop hk h₁ h₂
  cases hpc : k.pc with
  | top | woken =>
    simp only [hpc] at h
    obtain ⟨hm, rfl⟩ := locked_eq_some.1 h
    exact trans_noopTop hm hk (by simp [hpc])
  | wait | exited => simp [hpc] at h
  | count =>
    simp only [hpc] at h
    refine plain .noop h ?_ fun k => ⟨rfl, rfl, rfl, rfl⟩
    rw [hpc]; exact ⟨rfl, rfl, rfl, by simp, by simp⟩
  | sleep =>
    simp only [hpc] at h
    refine plain .top h ?_ fun k => ⟨rfl, rfl, rfl, rfl⟩
    rw [hpc]; exact ⟨rfl, rfl, rfl, by simp, by simp⟩
  | destroy =>
    simp only [hpc] at h
    refine plain .endSignal h ?_ fun k => ⟨rfl, rfl, rfl, rfl⟩
    rw [hpc]; exact ⟨rfl, rfl, rfl, by simp, by simp⟩
  | noop =>
    simp only [hpc] at h
    refine plain _ h ?_ fun k => ⟨rfl, rfl, rfl, rfl⟩
    rw [hpc]
    split <;> exact ⟨rfl, rfl, rfl, by simp, by simp⟩
  | relock =>
    simp only [hpc] at h
    obtain ⟨hm, rfl⟩ := locked_eq_some.1 h
    unfold noopBack
    cases he : k.endFlag with
    | true => exact .endStart hm hk (Or.inr hpc) he
    | false => exact .noopBack hm hk hpc he
  | bcast =>
    simp only [hpc] at h
    obtain rfl := Option.some.inj h
    exact .noopBcast hk hpc
  | closeHeld =>
    simp only [hpc] at h
    obtain rfl := Option.some.inj h
    exact .closeHeld hk hpc
  | close =>
    simp only [hpc] at h
    obtain rfl := Option.some.inj h
    exact .close hk hpc
  | delete =>
    simp only [hpc] at h
    obtain ⟨hm, rfl⟩ := locked_eq_some.1 h
    exact .delete hm hk hpc
  | endSignal =>
    simp only [hpc] at h
    obtain rfl := Option.some.inj h
    exact .endSignal hk hpc
  | endBcast =>
    simp only [hpc] at h
    obtain rfl := Option.some.inj h
    exact .endBcast hk hpc

theorem trans_abortLoop (hm : s.mtx = none) : Trans tp s a s.abortLoop := by
  unfold abortLoop
  split
  · exact .abort (fun _ => ‹_›) fun h => by cases h
  · rename_i hbusy
    have flags : ∀ ns ms : List ℕ, Trans tp s a (setEndFlags ns (setEndFlags ms s)).endLoop :=
      fun _ _ => .flags hm fun hw => hbusy (Or.inr hw)
    dsimp only
    split <;> split
    · exact flags _ _
    · exact flags [] _
    · exact flags _ []
    · exact flags [] []

theorem trans_abortStep (h : s.abortStep = some t) : Trans tp s a t := by
  unfold abortStep at h
  split at h
  · obtain rfl := Option.some.inj h
    exact .abort (fun h => by cases h) fun h => by cases h
  · obtain ⟨hm, rfl⟩ := locked_eq_some.1 h
    exact trans_abortLoop hm
  · obtain ⟨hm, rfl⟩ := locked_eq_some.1 h
    exact trans_abortLoop hm
  · rename_i hpc
    obtain ⟨hm, rfl⟩ := locked_eq_some.1 h
    refine .abort (fun h => ?_) fun _ => by rw [hpc]; rfl
    split at h <;> cases h
  all_goals cases h

/-- **What a step can do.** -/
theorem trans_of_step (h : step tp s a = some t) : Trans tp s a t := by
  cases a with
  | client i ok =>
    obtain ⟨pc, hi, h⟩ := Option.bind_eq_some_iff.1 h
    exact trans_clientStep hi h
  | timeout i | spuriousClient i =>
    simp only [step] at h
    split at h
    · rename_i hi
      obtain rfl := Option.some.inj h
      exact .client hi ⟨rfl, rfl, rfl, rfl, id⟩
    · cases h
  | noop c ok =>
    obtain ⟨k, hk, h⟩ := Option.bind_eq_some_iff.1 h
    exact trans_noopStep hk h
  | abort => exact trans_abortStep h
  | spuriousNoop c =>
    obtain ⟨k, hk, h⟩ := Option.bind_eq_some_iff.1 h
    split at h
    · rename_i hpc
      obtain rfl := Option.some.inj h
      refine .noop hk ?_ fun k => ⟨rfl, rfl, rfl, rfl⟩
      rw [hpc]
      exact ⟨rfl, rfl, rfl, by simp, by simp⟩
    · cases h
  | spuriousAbort =>
    simp only [step, abortSpurious] at h
    split at h
    · obtain rfl := Option.some.inj h
      exact .abort (fun h => by cases h) fun h => by cases h
    · rename_i hpc
      obtain rfl := Option.some.inj h
      exact .abort (fun h => by cases h) fun _ => by rw [hpc]; rfl
    · cases h
  | resetToday =>
    obtain ⟨hm, rfl⟩ := locked_eq_some.1 h
    exact .resetToday hm

end

end Pool

end SmtpProxy
