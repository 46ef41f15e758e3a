/-
  When the connections of a pool are worn out.

  * `ClientPc.phase?`, `Conn.phase?`: where a connection is in its life, by the
    thread that goes on with it;
  * `lives_of_step`: each connection leads its life;
  * `lived_of_reach`: the log of a run holds its history;
  * `retirement`: the limits, for every connection in every run.
-/
import SmtpProxy.Pool.Life
import SmtpProxy.Pool.Needs

namespace SmtpProxy

/-! ## The connections of a pool -/

def Deed.mark? (c : ℕ) : Deed → Option Mark
  | .conn d m => if d = c then some m else none
  | _ => none

/-- What a client that holds a connection does with it. -/
def ClientPc.phase? : ClientPc → Option (ℕ × LifePhase)
  | .got c _ => some (c, .got)
  | .rset c | .mail c => some (c, .work)
  | .sent c => some (c, .sent)
  | .limit c => some (c, .limit)
  | .pause c | .release c => some (c, .given)
  | .retire c _ => some (c, .ended)
  | _ => none

/-- Where a connection is that no client holds. -/
def Conn.phase? (k : Conn) : Option LifePhase :=
  match k.pc with
  | .count => some .count
  | .noop => some .noop
  | .relock => some .relock
  | .closeHeld | .close | .delete | .destroy | .endSignal | .endBcast | .exited => some .ended
  | .top | .wait | .woken | .bcast | .sleep =>
    match k.status with
    | .busy => none
    | .idle => some .idle
    | .noop => some .ended

theorem conn_of_phase {pc : ClientPc} {c : ℕ} {ph : LifePhase} (h : pc.phase? = some (c, ph)) :
    pc.conn? = some c := by
  cases pc <;> simp_all [ClientPc.phase?, ClientPc.conn?]

theorem phase_alike {k k' : Conn} (h : k.Alike k') : k'.phase? = k.phase? := by
  unfold Conn.phase?
  rw [h.status]
  rcases h.pc with hpc | ⟨hpc, hpc'⟩
  · rw [hpc]
  · rw [hpc, hpc']

namespace Pool

/-- The connection `c` is where `l` says. -/
def Lives (s : Pool) (c : ℕ) (l : Life) : Prop :=
  ∃ k, s.conns[c]? = some k ∧ l.sendCount = k.sendCount ∧ l.noopCount = k.noopCount ∧
    (k.phase? = some l.phase ∨
      ∃ (i : ℕ) (pc : ClientPc), s.clients[i]? = some pc ∧ pc.phase? = some (c, l.phase))

section
variable {tp : Tp} {s t : Pool} {a : Action}

theorem lives_held {i c : ℕ} {k : Conn} {pc : ClientPc} {ph : LifePhase} (hk : s.conns[c]? = some k)
    (hi : s.clients[i]? = some pc) (hpc : pc.phase? = some (c, ph)) :
    s.Lives c ⟨ph, k.sendCount, k.noopCount⟩ := ⟨k, hk, rfl, rfl, Or.inr ⟨i, pc, hi, hpc⟩⟩

/-- A thread has changed its own connection. -/
theorem lives_modify {c : ℕ} {k : Conn} {ph : LifePhase} {m n : ℤ} (f : Conn → Conn)
    (hk : s.conns[c]? = some k) (ht : t.conns = s.conns.modify c f) (h : (f k).phase? = some ph)
    (hm : (f k).sendCount = m) (hn : (f k).noopCount = n) : t.Lives c ⟨ph, m, n⟩ :=
  ⟨f k, get_modify_self hk ht, hm.symm, hn.symm, Or.inl h⟩

theorem lives_setPc {c : ℕ} {k : Conn} {ph : LifePhase} (pc : NoopPc) (hk : s.conns[c]? = some k)
    (ht : t.conns = s.conns.modify c fun k => { k with pc := pc })
    (h : { k with pc := pc }.phase? = some ph) : t.Lives c ⟨ph, k.sendCount, k.noopCount⟩ :=
  lives_modify _ hk ht h rfl rfl

/-- A connection that a client holds is busy, and its thread at rest. -/
theorem busy_of_phase {i c : ℕ} {k : Conn} {pc : ClientPc} {ph : LifePhase} (hI : s.Inv)
    (hk : s.conns[c]? = some k) (hi : s.clients[i]? = some pc) (hpc : pc.phase? = some (c, ph)) :
    k.status = .busy ∧ k.pc.inPool ∧ k.pc.owns = false := by
  have hhold : s.holds i = some c := (holds_eq hi).trans (conn_of_phase hpc)
  obtain ⟨k', hk', hin, hs⟩ := place_eq_some.1 ((hI.holders.busy_iff c).2 ⟨i, hhold⟩)
  obtain rfl := Option.some.inj (hk.symm.trans hk')
  refine ⟨hs, hin, ?_⟩
  cases ho : k.pc.owns with
  | false => rfl
  | true => cases hs.symm.trans ((hI.conn c k hk).owns ho)

/-- At rest, the status says where a connection is. -/
theorem phase_rest {k : Conn} (hin : k.pc.inPool) (ho : k.pc.owns = false) : k.phase? =
    match k.status with
    | .busy => none
    | .idle => some .idle
    | .noop => some .ended := by
  unfold Conn.phase?
  revert hin ho
  cases k.pc <;> simp [NoopPc.inPool, NoopPc.owns]

/-- A client goes on with the connection it holds. -/
theorem lives_clientStep {i c : ℕ} {ok : Bool} {pc : ClientPc} {ph : LifePhase} {k : Conn} (hI : s.Inv)
    (hi : s.clients[i]? = some pc) (hk : s.conns[c]? = some k) (hpc : pc.phase? = some (c, ph))
    (h : s.clientStep tp i ok pc = some t) : ∃ l',
      Life.Step tp ⟨ph, k.sendCount, k.noopCount⟩ ((pc.deed i ok t.clients[i]?).bind (Deed.mark? c)) l' ∧
      t.Lives c l' := by
  have set : ∀ pc', t.clients = s.clients.set i pc' → t.clients[i]? = some pc' := by
    intro pc' ht
    rw [ht, get_set hi, if_pos rfl]
  obtain ⟨-, hin, ho⟩ := busy_of_phase hI hk hi hpc
  cases pc with
  | got d isNew =>
    obtain ⟨rfl, rfl⟩ := Prod.mk.inj (Option.some.inj hpc)
    obtain rfl := Option.some.inj h
    have hk' := get_modify_self (f := fun k : Conn => { k with noopCount := 0 }) hk
      (t := s.updConn d fun k => { k with noopCount := 0 }) rfl
    cases isNew with
    | true => exact ⟨_, .start, lives_held (k := { k with noopCount := 0 }) hk' (set (.mail d) rfl) rfl⟩
    | false => exact ⟨_, .start, lives_held (k := { k with noopCount := 0 }) hk' (set (.rset d) rfl) rfl⟩
  | rset d =>
    obtain ⟨rfl, rfl⟩ := Prod.mk.inj (Option.some.inj hpc)
    obtain rfl := Option.some.inj h
    cases ok with
    | true => exact ⟨_, .stay, lives_held hk (set (.mail d) rfl) rfl⟩
    | false =>
      refine ⟨_, ?_, lives_held hk (set (.retire d false) rfl) rfl⟩
      simp only [ClientPc.deed, Bool.false_eq_true, if_false, Option.bind_some, Deed.mark?, if_true]
      exact .failed
  | mail d =>
    obtain ⟨rfl, rfl⟩ := Prod.mk.inj (Option.some.inj hpc)
    obtain rfl := Option.some.inj h
    cases ok with
    | true =>
      refine ⟨_, ?_, lives_held hk (set (.sent d) rfl) rfl⟩
      simp only [ClientPc.deed, if_true, Option.bind_some, Deed.mark?]
      exact .data
    | false =>
      refine ⟨_, ?_, lives_held hk (set (.retire d false) rfl) rfl⟩
      simp only [ClientPc.deed, Bool.false_eq_true, if_false, Option.bind_some, Deed.mark?, if_true]
      exact .failed
  | sent d =>
    obtain ⟨rfl, rfl⟩ := Prod.mk.inj (Option.some.inj hpc)
    obtain rfl := Option.some.inj h
    have hk' := get_modify_self (f := fun k : Conn => { k with sendCount := k.sendCount + 1 }) hk
      (t := s.updConn d fun k => { k with sendCount := k.sendCount + 1 }) rfl
    exact ⟨_, .sent, lives_held (k := { k with sendCount := k.sendCount + 1 }) hk' (set (.limit d) rfl) rfl⟩
  | limit d =>
    obtain ⟨rfl, rfl⟩ := Prod.mk.inj (Option.some.inj hpc)
    obtain ⟨k', hk', rfl⟩ := Option.map_eq_some_iff.1 h
    obtain rfl := Option.some.inj (hk.symm.trans hk')
    by_cases hlim : k.sendCount = tp.maxSendPerConn
    · exact ⟨_, .limit hlim, lives_held hk (set (.retire d true) (by rw [if_pos hlim]; rfl)) rfl⟩
    · by_cases hsleep : tp.sleepSecondsPerSend ≠ 0
      · exact ⟨_, .give hlim,
          lives_held hk (set (.pause d) (by rw [if_neg hlim, if_pos hsleep]; rfl)) rfl⟩
      · exact ⟨_, .give hlim,
          lives_held hk (set (.release d) (by rw [if_neg hlim, if_neg hsleep]; rfl)) rfl⟩
  | pause d =>
    obtain ⟨rfl, rfl⟩ := Prod.mk.inj (Option.some.inj hpc)
    obtain rfl := Option.some.inj h
    exact ⟨_, .stay, lives_held hk (set (.release d) rfl) rfl⟩
  | release d =>
    obtain ⟨rfl, rfl⟩ := Prod.mk.inj (Option.some.inj hpc)
    obtain ⟨-, rfl⟩ := locked_eq_some.1 h
    exact ⟨_, .release, lives_modify (fun k => { k with status := .idle }) hk rfl (phase_rest hin ho) rfl rfl⟩
  | retire d r =>
    obtain ⟨rfl, rfl⟩ := Prod.mk.inj (Option.some.inj hpc)
    obtain ⟨-, rfl⟩ := locked_eq_some.1 h
    refine ⟨⟨.ended, k.sendCount, k.noopCount⟩, ?_,
      lives_modify _ hk (retireConn_conns r) (phase_rest hin ho) rfl rfl⟩
    cases r <;> exact .stay
  | _ => cases hpc

/-- The thread of a connection at the top of its loop. -/
theorem lives_noopTop {c : ℕ} {k : Conn} {ph : LifePhase} (hk : s.conns[c]? = some k)
    (hin : k.pc.inPool) (ho : k.pc.owns = false) (hph : k.phase? = some ph)
    (hflag : k.status = .noop → k.endFlag) :
    ∃ l', Life.Step tp ⟨ph, k.sendCount, k.noopCount⟩ none l' ∧ (s.noopTop c k).Lives c l' := by
  rw [phase_rest hin ho] at hph
  cases hs : k.status with
  | busy => rw [hs] at hph; cases hph
  | idle =>
    obtain rfl : LifePhase.idle = ph := by rw [hs] at hph; exact Option.some.inj hph
    unfold noopTop
    split_ifs with hw he
    · exact ⟨_, .stay, lives_setPc .wait hk rfl (by simp [Conn.phase?, hs])⟩
    · exact ⟨_, .flagged (Or.inl rfl), lives_modify _ hk endConnLocked_move_conns rfl rfl rfl⟩
    · exact ⟨_, .take, lives_modify _ hk (setPc_move_conns ..) rfl rfl rfl⟩
  | noop =>
    obtain rfl : LifePhase.ended = ph := by rw [hs] at hph; exact Option.some.inj hph
    have htop : s.noopTop c k = s.endConnLocked c := by simp [noopTop, hs, hflag hs]
    rw [htop]
    exact ⟨_, .stay, lives_setPc .closeHeld hk rfl rfl⟩

/-- The thread of a connection goes on with it, unless a client holds it. -/
theorem lives_noopStep {c : ℕ} {ok : Bool} {k : Conn} {ph : LifePhase} (hI : s.Inv)
    (hk : s.conns[c]? = some k) (hph : k.phase? = some ph) (h : s.noopStep tp c ok k = some t) :
    ∃ l', Life.Step tp ⟨ph, k.sendCount, k.noopCount⟩ (if k.pc = .noop then some (.noop ok) else none) l' ∧
      t.Lives c l' := by
  have htop : k.pc.inPool → k.pc.owns = false → ∃ l',
      Life.Step tp ⟨ph, k.sendCount, k.noopCount⟩ none l' ∧ (s.noopTop c k).Lives c l' :=
    fun hin ho => lives_noopTop hk hin ho hph ((hI.conn c k hk).flagged hin ho)
  unfold noopStep at h
  unfold Conn.phase? at hph
  cases hpc : k.pc with
  | top | woken =>
    simp only [hpc] at h htop
    obtain ⟨-, rfl⟩ := locked_eq_some.1 h
    rw [if_neg (by simp)]
    exact htop rfl rfl
  | wait | exited => simp [hpc] at h
  | count =>
    simp only [hpc] at h hph
    obtain rfl := Option.some.inj h
    obtain rfl := Option.some.inj hph
    exact ⟨_, .count,
      lives_modify (fun k => { k with noopCount := k.noopCount + 1, pc := .noop }) hk rfl rfl rfl rfl⟩
  | noop =>
    simp only [hpc] at h hph
    obtain rfl := Option.some.inj h
    obtain rfl := Option.some.inj hph
    rw [if_pos rfl]
    split_ifs with hend
    · have hlast : ok → k.noopCount = tp.maxNoop := by
        intro hok
        simpa [hok] using hend
      exact ⟨_, .last hlast, lives_setPc .close hk rfl rfl⟩
    · simp only [Bool.or_eq_true, Bool.not_eq_eq_eq_not, Bool.not_true, decide_eq_true_eq, not_or,
        Bool.not_eq_false] at hend
      obtain ⟨rfl, hne⟩ := hend
      exact ⟨_, .noop hne, lives_setPc .relock hk rfl rfl⟩
  | relock =>
    simp only [hpc] at h hph
    obtain ⟨-, rfl⟩ := locked_eq_some.1 h
    obtain rfl := Option.some.inj hph
    rw [if_neg (by simp)]
    unfold noopBack
    split_ifs with he
    · exact ⟨_, .flagged (Or.inr rfl), lives_setPc .closeHeld hk rfl rfl⟩
    · exact ⟨_, .back, lives_modify _ hk (setPc_move_conns ..) rfl rfl rfl⟩
  | bcast | sleep =>
    simp only [hpc] at h hph
    obtain rfl := Option.some.inj h
    rw [if_neg (by simp)]
    exact ⟨_, .stay, lives_setPc _ hk rfl hph⟩
  | closeHeld =>
    simp only [hpc] at h hph
    obtain rfl := Option.some.inj h
    obtain rfl := Option.some.inj hph
    rw [if_neg (by simp)]
    exact ⟨_, .stay, lives_modify _ hk closeHeld_conns rfl rfl rfl⟩
  | close =>
    simp only [hpc] at h hph
    obtain rfl := Option.some.inj h
    obtain rfl := Option.some.inj hph
    rw [if_neg (by simp)]
    exact ⟨_, .stay, lives_modify (fun k => { k with sockOpen := false, pc := .delete }) hk rfl rfl rfl rfl⟩
  | destroy | endSignal | endBcast =>
    simp only [hpc] at h hph
    obtain rfl := Option.some.inj h
    obtain rfl := Option.some.inj hph
    rw [if_neg (by simp)]
    exact ⟨_, .stay, lives_setPc _ hk rfl rfl⟩
  | delete =>
    simp only [hpc] at h hph
    obtain ⟨-, rfl⟩ := locked_eq_some.1 h
    obtain rfl := Option.some.inj hph
    rw [if_neg (by simp)]
    exact ⟨_, .stay, lives_setPc .destroy hk rfl rfl⟩

/-- A held connection, while its thread goes on. -/
theorem busy_noopStep {c : ℕ} {ok : Bool} {k : Conn} (hk : s.conns[c]? = some k)
    (hs : k.status = .busy) (hin : k.pc.inPool) (ho : k.pc.owns = false)
    (h : s.noopStep tp c ok k = some t) : k.pc ≠ .noop ∧
      ∃ k', t.conns[c]? = some k' ∧ k'.sendCount = k.sendCount ∧ k'.noopCount = k.noopCount := by
  unfold noopStep at h
  cases hpc : k.pc with
  | top | woken =>
    simp only [hpc] at h
    obtain ⟨-, rfl⟩ := locked_eq_some.1 h
    have htop : s.noopTop c k = s.setPc c .wait := by simp [noopTop, hs]
    rw [htop]
    exact ⟨by simp, _, get_modify_self hk rfl, rfl, rfl⟩
  | bcast | sleep =>
    simp only [hpc] at h
    obtain rfl := Option.some.inj h
    exact ⟨by simp, _, get_modify_self hk rfl, rfl, rfl⟩
  | wait => simp [hpc] at h
  | count | noop | relock | closeHeld | close | delete => simp [hpc, NoopPc.owns] at ho
  | destroy | endSignal | endBcast | exited => simp [hpc, NoopPc.inPool] at hin

/-- A client that does not step keeps its connection. -/
theorem phase_beside {i c : ℕ} {pc : ClientPc} {ph : LifePhase} (h : Beside s t i)
    (hi : s.clients[i]? = some pc) (hpc : pc.phase? = some (c, ph)) : t.clients[i]? = some pc := by
  obtain ⟨f, hf, hget⟩ := h
  rw [hget, hi, Option.map_some]
  rcases hf pc with hpc' | ⟨rfl, -⟩
  · rw [hpc']
  · cases hpc

/-- A connection that the step does not use. -/
theorem lives_undisturbed {c : ℕ} {l : Life} (h : s.Lives c l) (hu : Undisturbed s t c)
    (hb : ∀ (i : ℕ) (pc : ClientPc), s.clients[i]? = some pc → pc.phase? = some (c, l.phase) → Beside s t i) :
    t.Lives c l := by
  obtain ⟨k, hk, hsend, hnoop, hl⟩ := h
  obtain ⟨f, hf, hget⟩ := hu
  have hk' : t.conns[c]? = some (f k) := by rw [hget, hk]; rfl
  refine ⟨f k, hk', hsend.trans (hf k).sendCount.symm, hnoop.trans (hf k).noopCount.symm, ?_⟩
  rcases hl with hl | ⟨i, pc, hi, hpc⟩
  · exact Or.inl ((phase_alike (hf k)).trans hl)
  · exact Or.inr ⟨i, pc, phase_beside (hb i pc hi hpc) hi hpc, hpc⟩

/-- Where a client gets a connection from. -/
theorem got_clientStep {i c : ℕ} {ok isNew : Bool} {pc : ClientPc} (hi : s.clients[i]? = some pc)
    (h : s.clientStep tp i ok pc = some t) (hgot : t.clients[i]? = some (.got c isNew)) :
    ((pc = .call ∨ pc = .woken) ∧ s.idleConns.nodes.head? = some c ∧
      t.conns = s.conns.modify c fun k => { k with status := .busy }) ∨
    pc = .setup ∧ ok = true ∧ c = s.conns.length ∧ t = s.connAdded i := by
  have get : ∀ pc', t.clients = s.clients.set i pc' → pc' = .got c isNew := by
    intro pc' ht
    rw [ht, get_set hi, if_pos rfl] at hgot
    exact Option.some.inj hgot
  cases pc with
  | call | woken =>
    obtain ⟨-, hg⟩ := gets_of_step (by simp) h
    cases hg with
    | @take d w hw hd =>
      obtain ⟨rfl, -⟩ := ClientPc.got.inj (get (.got d false) rfl)
      exact Or.inl ⟨by simp, hd, rfl⟩
    | start => cases get .connect rfl
    | wait => cases get .wait rfl
  | wait => cases h
  | setup =>
    obtain rfl := Option.some.inj h
    cases ok with
    | true =>
      obtain ⟨rfl, -⟩ := ClientPc.got.inj (get (.got s.conns.length true) rfl)
      exact Or.inr ⟨rfl, rfl, rfl, rfl⟩
    | false => cases get (.ret false) rfl
  | out | sent | pause | signal | ret =>
    obtain rfl := Option.some.inj h
    cases get _ rfl
  | connect | rset | mail =>
    obtain rfl := Option.some.inj h
    cases ok <;> cases get _ rfl
  | got d b =>
    obtain rfl := Option.some.inj h
    cases b <;> cases get _ rfl
  | limit =>
    obtain ⟨k, -, rfl⟩ := Option.map_eq_some_iff.1 h
    have := get _ rfl
    split_ifs at this
  | expired | release =>
    obtain ⟨-, rfl⟩ := locked_eq_some.1 h
    cases get _ rfl
  | retire d r =>
    obtain ⟨-, rfl⟩ := locked_eq_some.1 h
    cases r <;> cases get _ rfl
  | bcast d =>
    obtain rfl := Option.some.inj h
    have hi' : s.broadcastIdle.clients[i]? = some (.bcast d) := get_broadcastIdle hi rfl
    rw [setClient_clients, get_set hi', if_pos rfl] at hgot
    cases hgot

/-- A client's deeds are about the connection it holds or gets. -/
theorem mark_deed {i c : ℕ} {ok : Bool} {pc : ClientPc} {next : Option ClientPc} (hc : pc.conn? ≠ some c)
    (hgot : ∀ isNew, next ≠ some (.got c isNew)) : (pc.deed i ok next).bind (Deed.mark? c) = none := by
  cases pc with
  | call | woken | setup =>
    simp only [ClientPc.deed]
    split
    · rename_i d b
      have hne : d ≠ c := by rintro rfl; exact hgot b rfl
      simp [Deed.mark?, hne]
    · rfl
  | rset d | mail d =>
    have hne : d ≠ c := by rintro rfl; exact hc rfl
    cases ok <;> simp [ClientPc.deed, Deed.mark?, hne]
  | retire d r => cases r <;> rfl
  | _ => rfl

theorem lives_client {i c : ℕ} {ok : Bool} {l : Life} (hI : s.Inv)
    (h : step tp s (.client i ok) = some t) (hl : s.Lives c l) : ∃ l',
      Life.Step tp l ((Usage.deed s (.pool (.client i ok)) t).bind (Deed.mark? c)) l' ∧ t.Lives c l' := by
  obtain ⟨pc, hi, hstep⟩ := Option.bind_eq_some_iff.1 h
  rw [Usage.deed, hi, Option.bind_some]
  obtain ⟨k, hk, hm, hn, hph⟩ := hl
  obtain ⟨ph, m, n⟩ := l
  obtain rfl : m = k.sendCount := hm
  obtain rfl : n = k.noopCount := hn
  -- the client does not hold it, and gets it or not
  have other : pc.conn? ≠ some c → (∀ isNew, t.clients[i]? ≠ some (.got c isNew)) → ∃ l',
      Life.Step tp ⟨ph, k.sendCount, k.noopCount⟩
        ((pc.deed i ok t.clients[i]?).bind (Deed.mark? c)) l' ∧ t.Lives c l' := by
    intro hc hgot
    rw [mark_deed hc hgot]
    refine ⟨_, .stay, lives_undisturbed ⟨k, hk, rfl, rfl, hph⟩ (undisturbed_clientStep hi hc hgot hstep) ?_⟩
    intro j pc' hj hpc'
    refine beside_of_step (a := .client i ok) ?_ h
    rintro ok' he
    obtain ⟨rfl, -⟩ := Action.client.inj he
    obtain rfl := Option.some.inj (hi.symm.trans hj)
    exact hc (conn_of_phase hpc')
  rcases hph with hph | ⟨j, pc', hj, hpc'⟩
  · have hc : pc.conn? ≠ some c := by
      intro hc
      obtain ⟨k', hk', hin, hs⟩ := place_eq_some.1 ((hI.holders.busy_iff c).2 ⟨i, (holds_eq hi).trans hc⟩)
      obtain rfl := Option.some.inj (hk.symm.trans hk')
      have ho : k.pc.owns = false := by
        cases ho : k.pc.owns with
        | false => rfl
        | true => cases hs.symm.trans ((hI.conn c k hk).owns ho)
      rw [phase_rest hin ho, hs] at hph
      cases hph
    by_cases hgot : ∃ isNew, t.clients[i]? = some (.got c isNew)
    · obtain ⟨isNew, hgot⟩ := hgot
      rcases got_clientStep hi hstep hgot with ⟨hpc, hhead, ht⟩ | ⟨-, -, rfl, -⟩
      · -- the head of the idle connections
        obtain ⟨k', hk', hin, hs⟩ := place_eq_some.1 ((hI.lists.mem .idle c).1 (List.mem_of_head? hhead))
        obtain rfl := Option.some.inj (hk.symm.trans hk')
        have ho : k.pc.owns = false := by
          cases ho : k.pc.owns with
          | false => rfl
          | true => cases hs.symm.trans ((hI.conn c k hk).owns ho)
        obtain rfl : ph = .idle := by
          rw [phase_rest hin ho, hs] at hph
          exact (Option.some.inj hph).symm
        have hdeed : (pc.deed i ok t.clients[i]?).bind (Deed.mark? c) = some .use := by
          rw [hgot]
          rcases hpc with rfl | rfl <;> simp [ClientPc.deed, Deed.mark?]
        rw [hdeed]
        have hk₁ : t.conns[c]? = some { k with status := .busy } := get_modify_self hk ht
        exact ⟨_, .use, lives_held (k := { k with status := .busy }) hk₁ hgot rfl⟩
      · rw [List.getElem?_eq_none (le_refl _)] at hk
        cases hk
    · exact other hc fun isNew hgot' => hgot ⟨isNew, hgot'⟩
  · by_cases hij : j = i
    · subst hij
      obtain rfl := Option.some.inj (hi.symm.trans hj)
      exact lives_clientStep hI hi hk hpc' hstep
    · have hhold : s.holds j = some c := (holds_eq hj).trans (conn_of_phase hpc')
      refine other ?_ ?_
      · intro hc
        exact hij (hI.holders.unique j i c hhold ((holds_eq hi).trans hc))
      · intro isNew hgot
        have hI' := inv_trans hI (trans_of_step h)
        have hj' := phase_beside (beside_of_step (i := j) (a := .client i ok) (by simp [Ne.symm hij]) h) hj hpc'
        exact hij (hI'.holders.unique j i c ((holds_eq hj').trans (conn_of_phase hpc'))
          ((holds_eq hgot).trans rfl))

theorem lives_noop {c d : ℕ} {ok : Bool} {l : Life} (hI : s.Inv)
    (h : step tp s (.noop d ok) = some t) (hl : s.Lives c l) : ∃ l',
      Life.Step tp l ((Usage.deed s (.pool (.noop d ok)) t).bind (Deed.mark? c)) l' ∧ t.Lives c l' := by
  have hbeside : ∀ j, Beside s t j := fun j => beside_of_step (by simp) h
  by_cases hd : c = d
  · subst hd
    obtain ⟨k, hk, hstep⟩ := Option.bind_eq_some_iff.1 h
    have hdeed : (Usage.deed s (.pool (.noop c ok)) t).bind (Deed.mark? c) =
        if k.pc = .noop then some (.noop ok) else none := by
      rw [Usage.deed, hk, Option.bind_some]
      split <;> simp [Deed.mark?]
    rw [hdeed]
    obtain ⟨k', hk', hm, hn, hph⟩ := hl
    obtain rfl := Option.some.inj (hk.symm.trans hk')
    obtain ⟨ph, m, n⟩ := l
    obtain rfl : m = k.sendCount := hm
    obtain rfl : n = k.noopCount := hn
    rcases hph with hph | ⟨j, pc, hj, hpc⟩
    · exact lives_noopStep hI hk hph hstep
    · obtain ⟨hs, hin, ho⟩ := busy_of_phase hI hk hj hpc
      obtain ⟨hne, k₁, hk₁, hm₁, hn₁⟩ := busy_noopStep hk hs hin ho hstep
      rw [if_neg hne]
      exact ⟨_, .stay, k₁, hk₁, hm₁.symm, hn₁.symm, Or.inr ⟨j, pc, phase_beside (hbeside j) hj hpc, hpc⟩⟩
  · have hdeed : (Usage.deed s (.pool (.noop d ok)) t).bind (Deed.mark? c) = none := by
      rw [Usage.deed]
      cases s.conns[d]? with
      | none => rfl
      | some k =>
        rw [Option.bind_some]
        split <;> simp [Deed.mark?, Ne.symm hd]
    rw [hdeed]
    refine ⟨l, .stay, lives_undisturbed hl (undisturbed_of_step (by simp) ?_ h) fun j _ _ _ => hbeside j⟩
    simp [Ne.symm hd]

/-- **Each connection leads its life.** -/
theorem lives_of_step {x : Usage.Act} {c : ℕ} {l : Life} (hI : s.Inv) (h : Usage.base tp s x = some t)
    (hl : s.Lives c l) : ∃ l',
      Life.Step tp l ((Usage.deed s x t).bind (Deed.mark? c)) l' ∧ t.Lives c l' := by
  -- the steps that are no client's and not of a connection
  have aside : ∀ a, (∀ i ok, a ≠ .client i ok) → (∀ d ok, a ≠ .noop d ok) → step tp s a = some t →
      t.Lives c l := by
    intro a hi hc h
    exact lives_undisturbed hl (undisturbed_of_step hi (hc c) h) fun i _ _ _ => beside_of_step (hi i) h
  cases x with
  | report =>
    obtain ⟨-, rfl⟩ := locked_eq_some.1 h
    exact ⟨l, .stay, hl⟩
  | pool a =>
    cases a with
    | client i ok => exact lives_client hI h hl
    | noop d ok => exact lives_noop hI h hl
    | timeout i => exact ⟨l, .stay, aside (.timeout i) (by simp) (by simp) h⟩
    | abort => exact ⟨l, .stay, aside .abort (by simp) (by simp) h⟩
    | spuriousClient i => exact ⟨l, .stay, aside (.spuriousClient i) (by simp) (by simp) h⟩
    | spuriousNoop d => exact ⟨l, .stay, aside (.spuriousNoop d) (by simp) (by simp) h⟩
    | spuriousAbort => exact ⟨l, .stay, aside .spuriousAbort (by simp) (by simp) h⟩
    | resetToday => exact ⟨l, .stay, aside .resetToday (by simp) (by simp) h⟩

/-- What is told of a connection is told of one that exists. -/
theorem mark_exists {x : Usage.Act} {c : ℕ} (hI : s.Inv) (h : Usage.base tp s x = some t)
    (hc : s.conns.length ≤ c) (hc' : t.conns.length ≤ c) :
    (Usage.deed s x t).bind (Deed.mark? c) = none := by
  have absent : ∀ {u : Pool} {i : ℕ} {pc : ClientPc}, u.Inv → u.conns.length ≤ c →
      u.clients[i]? = some pc → pc.conn? ≠ some c := by
    intro u i pc hI hc hi hpc
    obtain ⟨k, hk, -⟩ := place_eq_some.1 ((hI.holders.busy_iff c).2 ⟨i, (holds_eq hi).trans hpc⟩)
    rw [List.getElem?_eq_none hc] at hk
    cases hk
  cases x with
  | report => rfl
  | pool a =>
    have hI' := inv_trans hI (trans_of_step (a := a) h)
    cases a with
    | client i ok =>
      obtain ⟨pc, hi, -⟩ := Option.bind_eq_some_iff.1 h
      rw [Usage.deed, hi, Option.bind_some]
      exact mark_deed (absent hI hc hi) fun isNew hgot => absent hI' hc' hgot rfl
    | noop d ok =>
      rw [Usage.deed]
      cases hd : s.conns[d]? with
      | none => rfl
      | some k =>
        have hne : d ≠ c := by
          rintro rfl
          rw [List.getElem?_eq_none hc] at hd
          cases hd
        rw [Option.bind_some]
        split <;> simp [Deed.mark?, hne]
    | _ => rfl

/-- A connection begins when its first client gets it. -/
theorem lives_added {x : Usage.Act} {c : ℕ} (h : Usage.base tp s x = some t)
    (hc : s.conns.length ≤ c) (hc' : c < t.conns.length) :
    (Usage.deed s x t).bind (Deed.mark? c) = some .use ∧ t.Lives c ⟨.got, 0, 0⟩ := by
  cases x with
  | report =>
    obtain ⟨-, rfl⟩ := locked_eq_some.1 h
    omega
  | pool a =>
    by_cases ha : ∃ i, s.clients[i]? = some .setup ∧ a = .client i true
    · obtain ⟨i, hi, rfl⟩ := ha
      obtain ⟨pc, hi', h⟩ := Option.bind_eq_some_iff.1 h
      obtain rfl := Option.some.inj (hi.symm.trans hi')
      obtain rfl : s.connAdded i = t := Option.some.inj h
      obtain rfl : c = s.conns.length := by
        rw [connAdded, setClient_conns, List.length_append, List.length_singleton] at hc'
        omega
      have hgot : (s.connAdded i).clients[i]? = some (.got s.conns.length true) :=
        (get_set hi).trans (if_pos rfl)
      have hk : (s.connAdded i).conns[s.conns.length]? = some Conn.added := List.getElem?_concat_length
      refine ⟨?_, lives_held hk hgot rfl⟩
      rw [Usage.deed, hi, Option.bind_some, hgot]
      simp [ClientPc.deed, Deed.mark?]
    · have hlen := conns_length (a := a) h fun i hi ha' => ha ⟨i, hi, ha'⟩
      omega

/-- An idle connection, in its life. -/
theorem idle_of_lives {c : ℕ} {l : Life} (hI : s.Inv) (hl : s.Lives c l) (hc : s.place c = some .idle) :
    l.phase = .idle := by
  obtain ⟨k, hk, hin, hs⟩ := place_eq_some.1 hc
  obtain ⟨k', hk', -, -, hph⟩ := hl
  obtain rfl := Option.some.inj (hk.symm.trans hk')
  rcases hph with hph | ⟨i, pc, hi, hpc⟩
  · have ho : k.pc.owns = false := by
      cases ho : k.pc.owns with
      | false => rfl
      | true => cases hs.symm.trans ((hI.conn c k hk).owns ho)
    rw [phase_rest hin ho, hs] at hph
    exact (Option.some.inj hph).symm
  · cases hs.symm.trans (busy_of_phase hI hk hi hpc).1

end

end Pool

namespace Usage

/-- What has happened to the connection `c`. -/
def history (d : Usage) (c : ℕ) : List Mark := d.log.filterMap (Deed.mark? c)

section
variable {tp : Tp} {n : ℕ} {d d' : Usage} {x : Act}

/-- The connections lead their lives, and nothing has happened to the others. -/
structure Lived (tp : Tp) (d : Usage) : Prop where
  lives : ∀ c < d.state.conns.length, ∃ l, Life.Runs tp (d.history c) l ∧ d.state.Lives c l
  none : ∀ c, d.state.conns.length ≤ c → d.history c = []

theorem lived_step (hI : d.state.Inv) (hL : Lived tp d) (h : step tp d x = some d') : Lived tp d' := by
  obtain ⟨hs, hlog⟩ := Runs.Logged.step_eq_some.1 h
  have hhist : ∀ c, d'.history c =
      d.history c ++ ((deed d.state x d'.state).bind (Deed.mark? c)).toList := by
    intro c
    rw [history, hlog, List.filterMap_append]
    cases deed d.state x d'.state with
    | none => rfl
    | some b => cases hb : Deed.mark? c b <;> simp [history, hb]
  have grows : d.state.conns.length ≤ d'.state.conns.length := by
    cases x with
    | report =>
      obtain ⟨-, ht⟩ := Pool.locked_eq_some.1 hs
      rw [ht]
    | pool a =>
      rcases Pool.conns_length_of_trans (Pool.trans_of_step (a := a) hs) with hlen | ⟨i, -, ht⟩
      · exact hlen.ge
      · rw [ht, Pool.connAdded, Pool.setClient_conns, List.length_append]
        omega
  refine ⟨fun c hc => ?_, fun c hc => ?_⟩
  · rw [hhist]
    by_cases hold : c < d.state.conns.length
    · obtain ⟨l, hr, hl⟩ := hL.lives c hold
      obtain ⟨l', hst, hl'⟩ := Pool.lives_of_step hI hs hl
      exact ⟨l', hr.step hst, hl'⟩
    · obtain ⟨hd, hl⟩ := Pool.lives_added hs (not_lt.1 hold) hc
      rw [hL.none c (not_lt.1 hold), hd]
      exact ⟨_, .added, hl⟩
  · rw [hhist, hL.none c (grows.trans hc), Pool.mark_exists hI hs (grows.trans hc) hc]
    rfl

theorem pool_inv (h : Runs.Reach (step tp) (init n) d) : d.state.Inv := by
  refine (Runs.Logged.reach_state h).inv (Pool.inv_init n) fun s x t hI hx => ?_
  cases x with
  | report =>
    obtain ⟨-, rfl⟩ := Pool.locked_eq_some.1 hx
    exact hI
  | pool a => exact Pool.inv_trans hI (Pool.trans_of_step hx)

theorem lived_of_reach (h : Runs.Reach (step tp) (init n) d) : Lived tp d := by
  suffices hboth : d.state.Inv ∧ Lived tp d from hboth.2
  obtain ⟨p, hp⟩ := h
  induction hp with
  | nil => exact ⟨Pool.inv_init n, by simp [init, Runs.Logged.start, Pool.init], fun _ _ => rfl⟩
  | snoc hp ha ih => exact ⟨pool_inv (hp.reach.snoc ha), lived_step ih.1 ih.2 ha⟩

/-- **Connections are retired in time.**  Over one connection at most
    `maxSendPerConn` mails are sent, and between two uses at most `maxNoop`
    NOOPs; the idle ones are below both limits; and a connection that has
    failed, or has reached a limit, is not given to a client any more. -/
theorem retirement (h : Runs.Reach (step tp) (init n) d) (c : ℕ) :
    (1 ≤ tp.maxSendPerConn →
      (d.history c).countP Mark.isData ≤ tp.maxSendPerConn ∧
      ∀ k, d.state.place c = some .idle → d.state.conns[c]? = some k → k.sendCount < tp.maxSendPerConn) ∧
    (1 ≤ tp.maxNoop →
      (∀ h₀ h₁ h₂ : List Mark, d.history c = h₀ ++ h₁ ++ h₂ → .use ∉ h₁ →
        h₁.countP Mark.isNoop ≤ tp.maxNoop) ∧
      ∀ k, d.state.place c = some .idle → d.state.conns[c]? = some k → k.noopCount < tp.maxNoop) ∧
    ∀ h₁ h₂ : List Mark, d.history c = h₁ ++ h₂ → Worn tp h₁ → .use ∉ h₂ := by
  have hL := lived_of_reach h
  by_cases hc : c < d.state.conns.length
  · obtain ⟨l, hr, hl⟩ := hL.lives c hc
    have hF := fit_of_runs hr
    have idle : ∀ k, d.state.place c = some .idle → d.state.conns[c]? = some k →
        l.phase = .idle ∧ l.sendCount = k.sendCount ∧ l.noopCount = k.noopCount := by
      intro k hidle hk
      have hph := Pool.idle_of_lives (pool_inv h) hl hidle
      obtain ⟨k', hk', hm, hn, -⟩ := hl
      obtain rfl := Option.some.inj (hk.symm.trans hk')
      exact ⟨hph, hm, hn⟩
    refine ⟨fun h1 => ⟨hF.sends.most h1, fun k hidle hk => ?_⟩, fun h1 => ⟨?_, fun k hidle hk => ?_⟩, ?_⟩
    · obtain ⟨hph, hm, -⟩ := idle k hidle hk
      have hcount := hF.sends.count
      have hless := hF.sends.less (by simp [hph]) h1
      rw [hph, if_neg (by simp)] at hcount
      omega
    · intro h₀ h₁ h₂ hh huse
      exact noops_between (hh ▸ hr) h1 huse
    · obtain ⟨hph, -, hn⟩ := idle k hidle hk
      have hcount := hF.noops.count (by simp [hph])
      have hless := hF.noops.less (by simp [hph]) h1
      rw [hph, if_neg (by simp)] at hcount
      omega
    · intro h₁ h₂ hh hw
      exact not_use_of_worn (hh ▸ hr) hw
  · have hnil := hL.none c (not_lt.1 hc)
    have hnone := List.getElem?_eq_none (not_lt.1 hc)
    refine ⟨fun h1 => ⟨?_, fun k _ hk => ?_⟩, fun h1 => ⟨?_, fun k _ hk => ?_⟩, ?_⟩
    · rw [hnil]
      exact Int.le_trans (by decide) h1
    · cases hnone.symm.trans hk
    · intro h₀ h₁ h₂ hh _
      rw [hnil] at hh
      obtain ⟨hh, -⟩ := List.append_eq_nil_iff.1 hh.symm
      obtain ⟨-, rfl⟩ := List.append_eq_nil_iff.1 hh
      exact Int.le_trans (by decide) h1
    · cases hnone.symm.trans hk
    · intro h₁ h₂ hh _
      rw [hnil] at hh
      rw [(List.append_eq_nil_iff.1 hh.symm).2]
      exact List.not_mem_nil

end

/-- A transport with one connection, for two mails and one NOOP. -/
def tpLimits : Tp := { tpPlain with maxSendPerConn := 2, maxNoop := 1 }

/-- A mail is sent over the connection 0, whose NOOP is its last, and the next
    one over a new connection. -/
theorem retirement_two : ∃ d : Usage, d.history 0 = [.use, .data, .noop true] ∧
    d.history 1 = [.use, .data] ∧ d.state.place 1 = some .idle ∧
    ∀ k, d.state.conns[1]? = some k → k.sendCount < tpLimits.maxSendPerConn := by
  have h : Runs.exec (step tpLimits) (init 1)
      (List.replicate 12 (.pool (.client 0 true)) ++ List.replicate 5 (.pool (.noop 0 true)) ++
        List.replicate 12 (.pool (.client 0 true))) =
      some ⟨⟨none, ⟨[], 0⟩, ⟨[1], 1⟩, ⟨[], 0⟩, 0, 2, 2,
          [{ Conn.added with status := .noop, sendCount := 1, noopCount := 1, sockOpen := false, pc := .destroy },
            { Conn.added with status := .idle, sendCount := 1 }], [.out], .out⟩,
        [.called 0, .conn 0 .use, .conn 0 .data, .counted 0, .returned 0 true, .conn 0 (.noop true),
          .called 0, .conn 1 .use, .conn 1 .data, .counted 0, .returned 0 true]⟩ := rfl
  have hr := retirement (Runs.Reach.refl.of_exec h) 1
  refine ⟨_, ?_, ?_, ?_, fun k hk => (hr.1 (by decide)).2 k ?_ hk⟩ <;> rfl

end Usage

end SmtpProxy
