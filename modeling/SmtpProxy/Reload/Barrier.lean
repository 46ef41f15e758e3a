/-
  The barrier of a reload, and the clients that it overlooks.

  `abortTpConns` waits for the clients that `busyConns` and `waiting` count.  A
  client is not counted between the blocked test and the lock of
  `getAnIdleConn`, nor after it has given its connection back (`Unseen`): the
  reload then frees the transports under it.  `reload_safe`: if no drain
  overlooks a client, no client uses a freed transport (`Safe`).
-/
import SmtpProxy.Reload.Aim
import SmtpProxy.SendMail

namespace SmtpProxy

open CString

/-- From `freeTransports` to the end of `loadTpConfig`. -/
def MainPc.rebuilds : MainPc → Bool
  | .free _ | .unlink | .load _ => true
  | _ => false

/-- In `freeTransports`. -/
def MainPc.frees : MainPc → Bool
  | .free _ | .unlink => true
  | _ => false

/-- The clients are blocked. -/
def MainPc.blocks : MainPc → Bool
  | .abort _ | .free _ | .unlink | .load _ | .unblock => true
  | _ => false

/-- No transport of the list has been drained. -/
def MainPc.fresh : MainPc → Bool
  | .abort _ | .free _ | .unlink => false
  | _ => true

namespace System

/-- The client `i` reads the name of `t`, or is in `tpSendMail` with it. -/
def Uses (s : System) (i t : ℕ) : Prop :=
  (∃ name nodes, s.reqs[i]? = some (.look name (t :: nodes))) ∨
    s.reqs[i]? = some (.send t) ∧ s.inSend i t

/-- A transport that a client uses is in the list and not freed, and while the
    list is rebuilt no client visits it or uses a transport. -/
structure Safe (s : System) : Prop where
  live : ∀ i t, s.Uses i t → t ∈ s.transports ∧ ∃ o, s.heap[t]? = some o ∧ o.freed = false
  barrier : s.main.rebuilds → ∀ i, (∀ name nodes, s.reqs[i]? ≠ some (.look name nodes)) ∧
    ∀ t, ¬ s.Uses i t

/-- The client `i` is past the blocked test on its way to `t`, or in it, where
    `abortTpConns` does not count it. -/
def Unseen (s : System) (i t : ℕ) : Prop :=
  s.aim i = some (some t) ∧ ∀ (o : TpObj) (pc : ClientPc), s.reqs[i]? = some (.send t) →
    s.heap[t]? = some o → o.pool.clients[i]? = some pc → pc = .call ∨ pc.pending? ≠ none

/-- `abortTpConns` stops waiting for the clients while one of them is unseen, or
    the visit ends while a client looks for a name that no transport has. -/
def Overlooks (s : System) : Move → Prop
  | .main _ =>
    (∃ t nodes o, s.main = .abort (t :: nodes) ∧ s.heap[t]? = some o ∧ o.pool.Drains ∧
      ∃ i, s.Unseen i t) ∨
    s.main = .abort [] ∧ ∃ i, s.aim i = some none
  | _ => False

/-- The invariant of the runs in which no client is overlooked. -/
structure Barrier (s : System) : Prop where
  pools : ∀ (t : ℕ) (o : TpObj), s.heap[t]? = some o → o.pool.Inv
  listed : ∀ t ∈ s.transports, t < s.heap.length
  live : s.main.frees = false → ∀ t ∈ s.transports, ∀ o, s.heap[t]? = some o → o.freed = false
  blocked : s.main.blocks → s.blocked
  fresh : s.main.fresh → ∀ t ∈ s.transports, ∀ o, s.heap[t]? = some o → o.pool.abort = .out
  visited : ∀ nodes, s.main = .abort nodes → ∀ t ∈ s.transports, t ∉ nodes →
    ∀ o, s.heap[t]? = some o → o.pool.abort = .done
  drained : ∀ t ∈ s.transports, ∀ o, s.heap[t]? = some o → o.pool.abort.drained →
    ∀ i, s.aim i ≠ some (some t)
  aimed : ∀ i t, s.aim i = some (some t) → t ∈ s.transports
  nodes : ∀ (i : ℕ) (name : Bytes) (ns : List ℕ), s.reqs[i]? = some (.look name ns) →
    ns ⊆ s.transports
  empty : s.main.rebuilds → ∀ i, s.aim i = none

section
variable {s s' : System} {i t : ℕ} {o o' : TpObj}

theorem get_listed (hB : s.Barrier) (ht : t ∈ s.transports) : ∃ o, s.heap[t]? = some o :=
  ⟨_, List.getElem?_eq_getElem (hB.listed t ht)⟩

theorem Barrier.safe (hB : s.Barrier) : s.Safe := by
  have hlook : ∀ (i : ℕ) (name : Bytes) (nodes : List ℕ), s.reqs[i]? = some (.look name nodes) →
      s.main.rebuilds = false := by
    intro i name nodes hi
    by_contra h
    have haim := hB.empty (by simpa using h) i
    rw [aim_of_get hi] at haim
    cases haim
  have huse : ∀ i t, s.Uses i t → s.main.rebuilds = false ∧ t ∈ s.transports := by
    rintro i t (⟨name, nodes, hi⟩ | ⟨hi, hin⟩)
    · exact ⟨hlook i name _ hi, hB.nodes i name _ hi List.mem_cons_self⟩
    · have haim : s.aim i = some (some t) := (aim_of_get hi).trans (if_pos hin)
      refine ⟨?_, hB.aimed i t haim⟩
      by_contra h
      rw [hB.empty (by simpa using h) i] at haim
      cases haim
  refine ⟨fun i t h => ?_, fun hr i => ⟨fun name nodes hi => ?_, fun t h => ?_⟩⟩
  · obtain ⟨hr, ht⟩ := huse i t h
    obtain ⟨o, ho⟩ := get_listed hB ht
    refine ⟨ht, o, ho, hB.live ?_ t ht o ho⟩
    revert hr
    cases s.main <;> simp [MainPc.rebuilds, MainPc.frees]
  · rw [hlook i name nodes hi] at hr
    cases hr
  · rw [(huse i t h).1] at hr
    cases hr

/-! ## Steps of the clients and of the pools -/

theorem Barrier.serves (hB : s.Barrier) (h : Serves s s') : s'.Barrier := by
  have hlen : s'.heap.length = s.heap.length := by
    simpa using congrArg List.length h.tps
  -- a new way to a transport begins only when nothing is being drained
  have hfresh : s.blocked = false → s.main.fresh ∧ s.main.rebuilds = false := by
    intro hb
    have hblocks : s.main.blocks = false := by
      by_contra hne
      rw [hB.blocked (by simpa using hne)] at hb
      cases hb
    revert hblocks
    cases s.main <;> simp [MainPc.blocks, MainPc.fresh, MainPc.rebuilds]
  constructor
  case pools =>
    intro t o' ho'
    obtain ⟨o, ho, hk⟩ := h.heap t o' ho'
    exact hk.inv (hB.pools t o ho)
  case listed =>
    rw [h.transports, hlen]
    exact hB.listed
  case live =>
    rw [h.transports, h.main]
    intro hf t ht o' ho'
    obtain ⟨o, ho, hk⟩ := h.heap t o' ho'
    rw [hk.freed]
    exact hB.live hf t ht o ho
  case blocked =>
    rw [h.main, h.blocked]
    exact hB.blocked
  case fresh =>
    rw [h.transports, h.main]
    intro hf t ht o' ho'
    obtain ⟨o, ho, hk⟩ := h.heap t o' ho'
    exact AbortPc.Woken.out (hB.fresh hf t ht o ho ▸ hk.abort)
  case visited =>
    rw [h.transports, h.main]
    intro nodes hm t ht hn o' ho'
    obtain ⟨o, ho, hk⟩ := h.heap t o' ho'
    exact AbortPc.Woken.done (hB.visited nodes hm t ht hn o ho ▸ hk.abort)
  case drained =>
    rw [h.transports]
    intro t ht o' ho' hd i hi
    obtain ⟨o, ho, hk⟩ := h.heap t o' ho'
    rcases h.aim i with haim | haim | ⟨hb, -⟩
    · exact hB.drained t ht o ho (hk.abort.drained hd) i (haim ▸ hi)
    · rw [haim] at hi
      cases hi
    · have hout := hB.fresh (hfresh hb).1 t ht o ho
      have hd' := hk.abort.drained hd
      rw [hout] at hd'
      cases hd'
  case aimed =>
    rw [h.transports]
    intro i t hi
    rcases h.aim i with haim | haim | ⟨-, name, haim⟩
    · exact hB.aimed i t (haim ▸ hi)
    · rw [haim] at hi
      cases hi
    · exact findIn_mem (Option.some.inj (haim.symm.trans hi))
  case nodes =>
    rw [h.transports]
    intro i name ns hi
    rcases h.nodes i name ns hi with ⟨ms, hms, hsub⟩ | hsub
    · exact List.Subset.trans hsub (hB.nodes i name ms hms)
    · exact hsub
  case empty =>
    rw [h.main]
    intro hr i
    rcases h.aim i with haim | haim | ⟨hb, -⟩
    · rw [haim]
      exact hB.empty hr i
    · exact haim
    · rw [(hfresh hb).2] at hr
      cases hr

/-! ## Steps of the reload -/

/-- A step of the reload that changes its place only, or the blocked flag. -/
theorem Barrier.goto (hB : s.Barrier) (pc : MainPc) (b : Bool) (hblocks : pc.blocks → b)
    (hlive : pc.frees = false → s.main.frees = false) (hfresh : pc.fresh → s.main.fresh)
    (hvisited : ∀ nodes, pc = .abort nodes → ∀ t ∈ s.transports, t ∉ nodes →
      ∀ o, s.heap[t]? = some o → o.pool.abort = .done)
    (hempty : pc.rebuilds → ∀ i, s.aim i = none) :
    { s with blocked := b, main := pc }.Barrier := by
  have haim : ∀ i, System.aim { s with blocked := b, main := pc } i = s.aim i :=
    fun i => aim_congr rfl rfl rfl fun _ _ => rfl
  refine ⟨hB.pools, hB.listed, fun h => hB.live (hlive h), hblocks, fun h => hB.fresh (hfresh h),
    hvisited, ?_, ?_, hB.nodes, ?_⟩
  · simpa only [haim] using hB.drained
  · simpa only [haim] using hB.aimed
  · simpa only [haim] using hempty

theorem inSend_setTp (ho : s.heap[t]? = some o) (h : o'.pool.clients = o.pool.clients) (i u : ℕ) :
    (s.setTp t o').inSend i u = s.inSend i u := by
  unfold inSend
  rw [get_setTp ho]
  split
  · subst u
    rw [ho]
    exact Pool.inTp_congr (by rw [h])
  · rfl

/-- A client that the drain does not wait for is unseen. -/
theorem unseen_of_drains (hI : o.pool.Inv) (ho : s.heap[t]? = some o) (hd : o.pool.Drains)
    (hi : s.aim i = some (some t)) : s.Unseen i t := by
  refine ⟨hi, fun o' pc hr ho' hpc => ?_⟩
  obtain rfl := Option.some.inj (ho.symm.trans ho')
  have hin : s.inSend i t := by
    rw [aim_of_get hr] at hi
    by_contra hne
    exact absurd ((if_neg hne).symm.trans hi) (by simp)
  rw [inSend_of_get ho, Pool.inTp_of_get hpc] at hin
  exact Pool.uncounted_of_drains hI hd hpc hin

/-- A step of `abortTpConns`. -/
theorem barrier_abortPool (hB : s.Barrier) {nodes : List ℕ} {pool : Pool}
    (hm : s.main = .abort (t :: nodes)) (ho : s.heap[t]? = some o)
    (hC : o.pool.Drains → ∀ i, ¬ s.Unseen i t) (hp : o.pool.step o.tp .abort = some pool) :
    (s.setTp t { o with pool := pool }).Barrier := by
  obtain ⟨hclients, hdrains⟩ := Pool.abortStep_frame hp
  have haim : ∀ i, (s.setTp t { o with pool := pool }).aim i = s.aim i := fun i =>
    aim_congr (tps_setTp ho rfl) rfl rfl fun u _ => inSend_setTp ho hclients i u
  constructor
  case pools =>
    intro u o' hu
    rw [get_setTp ho] at hu
    split at hu
    · obtain rfl := Option.some.inj hu
      exact Pool.inv_trans (hB.pools t o ho) (Pool.trans_of_step hp)
    · exact hB.pools u o' hu
  case listed =>
    intro u hu
    show u < (s.heap.set t _).length
    rw [List.length_set]
    exact hB.listed u hu
  case live =>
    intro hf u hu o' hou
    rw [get_setTp ho] at hou
    split at hou
    · subst u
      obtain rfl := Option.some.inj hou
      exact hB.live hf t hu o ho
    · exact hB.live hf u hu o' hou
  case blocked => exact hB.blocked
  case fresh =>
    intro hf
    change s.main.fresh = true at hf
    rw [hm] at hf
    cases hf
  case visited =>
    intro ns hns u hu hn o' hou
    obtain rfl : t :: nodes = ns := MainPc.abort.inj (hm.symm.trans hns)
    have hut : u ≠ t := fun h => hn (h ▸ List.mem_cons_self)
    rw [get_setTp ho, if_neg hut] at hou
    exact hB.visited _ hm u hu hn o' hou
  case drained =>
    intro u hu o' hou hd i hi
    rw [haim] at hi
    rw [get_setTp ho] at hou
    split at hou
    · subst u
      obtain rfl := Option.some.inj hou
      rcases hdrains hd with hd | hd
      · exact hB.drained t hu o ho hd i hi
      · exact hC hd i (unseen_of_drains (hB.pools t o ho) ho hd hi)
    · exact hB.drained u hu o' hou hd i hi
  case aimed =>
    intro i u hi
    rw [haim] at hi
    exact hB.aimed i u hi
  case nodes => exact hB.nodes
  case empty =>
    intro hr
    change s.main.rebuilds = true at hr
    rw [hm] at hr
    cases hr

theorem barrier_abortStep (hB : s.Barrier) {nodes : List ℕ} (hm : s.main = .abort (t :: nodes))
    (hC : ∀ o, s.heap[t]? = some o → o.pool.Drains → ∀ i, ¬ s.Unseen i t)
    (h : s.abortStep t nodes = some s') : s'.Barrier := by
  obtain ⟨o, ho, h⟩ := Option.bind_eq_some_iff.1 h
  split at h
  · rename_i hdone
    obtain rfl := Option.some.inj h
    have hb : s.blocked := hB.blocked (by rw [hm]; rfl)
    have hf : s.main.frees = false := by rw [hm]; rfl
    refine hB.goto (.abort nodes) s.blocked (fun _ => hb) (fun _ => hf) (fun h => by cases h) ?_
      (fun h => by cases h)
    rintro ns ⟨⟩ u hu hn o' ho'
    by_cases hut : u = t
    · subst hut
      obtain rfl := Option.some.inj (ho.symm.trans ho')
      exact hdone
    · exact hB.visited _ hm u hu (fun h => (List.mem_cons.1 h).elim hut hn) o' ho'
  · obtain ⟨o', pool, ho', hp, rfl⟩ := poolStep_eq_some.1 h
    exact barrier_abortPool hB hm ho' (hC o' ho') hp

/-- While the list is rebuilt, no client is on its way. -/
theorem barrier_rebuilds (hr : s.main.rebuilds)
    (hpools : ∀ (t : ℕ) (o : TpObj), s.heap[t]? = some o → o.pool.Inv)
    (hlisted : ∀ t ∈ s.transports, t < s.heap.length)
    (hlive : s.main.frees = false → ∀ t ∈ s.transports, ∀ o, s.heap[t]? = some o → o.freed = false ∧
      o.pool.abort = .out)
    (hb : s.blocked) (hempty : ∀ i, s.aim i = none) : s.Barrier where
  pools := hpools
  listed := hlisted
  live := fun hf t ht o ho => (hlive hf t ht o ho).1
  blocked := fun _ => hb
  fresh := by
    intro hf t ht o ho
    refine (hlive ?_ t ht o ho).2
    revert hf
    cases s.main <;> simp [MainPc.fresh, MainPc.frees]
  visited := by
    intro nodes hm
    rw [hm] at hr
    cases hr
  drained := by
    intro t _ o _ _ i hi
    rw [hempty] at hi
    cases hi
  aimed := by
    intro i t hi
    rw [hempty] at hi
    cases hi
  nodes := by
    intro i name ns hi
    have haim := hempty i
    rw [aim_of_get hi] at haim
    cases haim
  empty := fun _ => hempty

/-- When the visit with `abortTpConns` is over, no client is on its way. -/
theorem empty_of_visited (hB : s.Barrier) (hm : s.main = .abort [])
    (hC : ¬ ∃ i, s.aim i = some none) (i : ℕ) : s.aim i = none := by
  cases haim : s.aim i with
  | none => rfl
  | some a =>
    cases a with
    | none => exact absurd ⟨i, haim⟩ hC
    | some t =>
      have ht := hB.aimed i t haim
      obtain ⟨o, ho⟩ := get_listed hB ht
      have hdone := hB.visited [] hm t ht List.not_mem_nil o ho
      exact absurd haim (hB.drained t ht o ho (by rw [hdone]; rfl) i)

theorem barrier_freeTp (hB : s.Barrier) {nodes : List ℕ} (hm : s.main = .free (t :: nodes))
    (h : s.freeTp t nodes = some s') : s'.Barrier := by
  have hempty := hB.empty (by rw [hm]; rfl)
  have hb := hB.blocked (by rw [hm]; rfl)
  obtain ⟨o, ho, rfl⟩ := Option.map_eq_some_iff.1 h
  have hin : ∀ i u, (s.setTp t { o with freed := true }).inSend i u = s.inSend i u :=
    inSend_setTp ho rfl
  refine barrier_rebuilds rfl (fun u o' hu => ?_) ?_ (fun h => by cases h) hb fun i =>
    aim_eq_none_congr (hempty i) rfl (hin i)
  · change (s.setTp t _).heap[u]? = _ at hu
    rw [get_setTp ho] at hu
    split at hu
    · obtain rfl := Option.some.inj hu
      exact hB.pools t o ho
    · exact hB.pools u o' hu
  · intro u hu
    show u < (s.heap.set t _).length
    rw [List.length_set]
    exact hB.listed u hu

theorem barrier_newTp (hB : s.Barrier) {tp : Tp} {tps : List Tp} (hm : s.main = .load (tp :: tps)) :
    (s.newTp tp tps).Barrier := by
  have hget : ∀ u o, (s.newTp tp tps).heap[u]? = some o → s.heap[u]? = some o ∨
      u = s.heap.length ∧ o = ⟨tp, .init s.reqs.length, false⟩ := by
    intro u o hu
    change (s.heap ++ [_])[u]? = some o at hu
    rw [List.getElem?_append] at hu
    split at hu
    · exact Or.inl hu
    · rename_i hlen
      obtain ⟨h0, rfl⟩ := List.getElem?_eq_some_iff.1 hu
      have hzero : u - s.heap.length = 0 := by simpa using h0
      exact Or.inr ⟨by omega, by simp [hzero]⟩
  have hempty := hB.empty (by rw [hm]; rfl)
  refine barrier_rebuilds rfl ?_ ?_ ?_ (hB.blocked (by rw [hm]; rfl)) fun i => ?_
  · intro u o hu
    rcases hget u o hu with hu | ⟨-, rfl⟩
    · exact hB.pools u o hu
    · exact Pool.inv_init _
  · intro u hu
    show u < (s.heap ++ [_]).length
    rw [List.length_append, List.length_singleton]
    rcases List.mem_append.1 hu with hu | hu
    · exact Nat.lt_succ_of_lt (hB.listed u hu)
    · rw [List.mem_singleton.1 hu]
      exact Nat.lt_succ_self _
  · intro _ u hu o ho
    rcases hget u o ho with ho | ⟨rfl, rfl⟩
    · have hus : u ∈ s.transports := by
        refine (List.mem_append.1 hu).resolve_right fun h => ?_
        have hlt := (List.getElem?_eq_some_iff.1 ho).1
        rw [List.mem_singleton.1 h] at hlt
        exact Nat.lt_irrefl _ hlt
      exact ⟨hB.live (by rw [hm]; rfl) u hus o ho, hB.fresh (by rw [hm]; rfl) u hus o ho⟩
    · exact ⟨rfl, rfl⟩
  · refine aim_eq_none_congr (hempty i) rfl fun u => ?_
    show (s.heap ++ [_])[u]?.any _ = s.heap[u]?.any _
    rw [List.getElem?_append]
    split
    · rfl
    · rename_i hlen
      rw [List.getElem?_eq_none (l := s.heap) (by omega)]
      cases u - s.heap.length with
      | zero => exact Pool.inTp_init _ i
      | succ k => rfl

theorem barrier_wake (hB : s.Barrier) (hm : s.main = .bcast) :
    { s with reqs := s.reqs.map Req.wake, main := .idle }.Barrier := by
  have hget : ∀ i, (s.reqs.map Req.wake)[i]? = s.reqs[i]?.map Req.wake := fun i => List.getElem?_map
  have haim : ∀ i, System.aim { s with reqs := s.reqs.map Req.wake, main := .idle } i = s.aim i := by
    intro i
    show (s.reqs.map Req.wake)[i]?.bind _ = s.reqs[i]?.bind _
    rw [hget]
    cases s.reqs[i]? with
    | none => rfl
    | some r =>
      show System.aimOf _ i r.wake = s.aimOf i r
      cases r with
      | wait msg => rfl
      | _ => exact aimOf_congr rfl rfl fun _ _ => rfl
  have hfresh : s.main.fresh ∧ s.main.frees = false := by rw [hm]; exact ⟨rfl, rfl⟩
  refine ⟨hB.pools, hB.listed, fun _ => hB.live hfresh.2, (fun h => by cases h),
    fun _ => hB.fresh hfresh.1, (fun _ h => by cases h), ?_, ?_, fun i name ns hi => ?_,
    (fun h => by cases h)⟩
  · simpa only [haim] using hB.drained
  · simpa only [haim] using hB.aimed
  · change (s.reqs.map Req.wake)[i]? = _ at hi
    rw [hget] at hi
    obtain ⟨r, hr, hw⟩ := Option.map_eq_some_iff.1 hi
    refine hB.nodes i name ns ?_
    cases r with
    | wait msg => cases hw
    | _ => rw [hr, ← hw]; rfl

theorem barrier_mainStep (hB : s.Barrier) {config : List Tp} (hC : ¬ s.Overlooks (.main config))
    (h : s.mainStep config s.main = some s') : s'.Barrier := by
  cases hm : s.main with
  | idle =>
    rw [hm] at h
    obtain rfl := Option.some.inj h
    exact hB.goto _ s.blocked (fun h => by cases h) (fun _ => by rw [hm]; rfl)
      (fun _ => by rw [hm]; rfl) (fun _ h => by cases h) (fun h => by cases h)
  | block =>
    rw [hm] at h
    obtain rfl := Option.some.inj h
    exact hB.goto _ true (fun _ => rfl) (fun _ => by rw [hm]; rfl) (fun h => by cases h)
      (fun ns hns u hu hn => absurd hu (MainPc.abort.inj hns ▸ hn)) (fun h => by cases h)
  | abort nodes =>
    cases nodes with
    | cons t nodes =>
      rw [hm] at h
      exact barrier_abortStep hB hm (fun o ho hd i hi => hC (Or.inl ⟨t, nodes, o, hm, ho, hd, i, hi⟩)) h
    | nil =>
      rw [hm] at h
      obtain rfl := Option.some.inj h
      have hempty := empty_of_visited hB hm fun h => hC (Or.inr ⟨hm, h⟩)
      exact barrier_rebuilds rfl hB.pools hB.listed (fun h => by cases h)
        (hB.blocked (by rw [hm]; rfl)) fun i => aim_eq_none_congr (hempty i) rfl fun _ => rfl
  | free nodes =>
    rw [hm] at h
    cases nodes with
    | cons t nodes => exact barrier_freeTp hB hm h
    | nil =>
      obtain rfl := Option.some.inj h
      exact barrier_rebuilds rfl hB.pools hB.listed (fun h => by cases h)
        (hB.blocked (by rw [hm]; rfl)) fun i =>
          aim_eq_none_congr (hB.empty (by rw [hm]; rfl) i) rfl fun _ => rfl
  | unlink =>
    have hempty := hB.empty (by rw [hm]; rfl)
    have hb := hB.blocked (by rw [hm]; rfl)
    rw [hm] at h
    obtain rfl := Option.some.inj h
    cases htps : s.transports with
    | nil =>
      exact barrier_rebuilds rfl hB.pools (fun _ h => by cases h) (fun _ _ h => by cases h) hb
        fun i => aim_eq_none_congr (hempty i) rfl fun _ => rfl
    | cons u nodes =>
      refine barrier_rebuilds (by rw [hm]; rfl) hB.pools (fun t ht => ?_) (fun hf => ?_) hb fun i =>
        aim_eq_none_congr (hempty i) rfl fun _ => rfl
      · exact hB.listed t (htps ▸ List.mem_cons_of_mem _ ht)
      · change s.main.frees = false at hf
        rw [hm] at hf
        cases hf
  | load tps =>
    cases tps with
    | cons tp tps =>
      rw [hm] at h
      obtain rfl := Option.some.inj h
      exact barrier_newTp hB hm
    | nil =>
      have hb := hB.blocked (by rw [hm]; rfl)
      rw [hm] at h
      obtain rfl := Option.some.inj h
      exact hB.goto _ s.blocked (fun _ => hb) (fun _ => by rw [hm]; rfl) (fun _ => by rw [hm]; rfl)
        (fun _ h => by cases h) (fun h => by cases h)
  | unblock =>
    rw [hm] at h
    obtain rfl := Option.some.inj h
    exact hB.goto _ false (fun h => by cases h) (fun _ => by rw [hm]; rfl) (fun _ => by rw [hm]; rfl)
      (fun _ h => by cases h) (fun h => by cases h)
  | bcast =>
    rw [hm] at h
    obtain rfl := Option.some.inj h
    exact barrier_wake hB hm

/-- **What every step that overlooks no client preserves.** -/
theorem barrier_step {m : Move} (hB : s.Barrier) (hC : ¬ s.Overlooks m) (h : s.step m = some s') :
    s'.Barrier := by
  by_cases hm : ∃ config, m = .main config
  · obtain ⟨config, rfl⟩ := hm
    exact barrier_mainStep hB hC h
  · exact hB.serves (serves_of_step (fun config hc => hm ⟨config, hc⟩) h)

theorem barrier_init (tps : List Tp) (n : ℕ) : (init tps n).Barrier := by
  have hget : ∀ (t : ℕ) (o : TpObj), (init tps n).heap[t]? = some o →
      o.pool = .init n ∧ o.freed = false := by
    intro t o ho
    change (tps.map _)[t]? = some o at ho
    obtain ⟨tp, -, rfl⟩ := Option.map_eq_some_iff.1 (List.getElem?_map.symm.trans ho)
    exact ⟨rfl, rfl⟩
  have hreq : ∀ (i : ℕ) (r : Req), (init tps n).reqs[i]? = some r → r = .read := fun i r hi =>
    List.eq_of_mem_replicate (List.mem_of_getElem? hi)
  have haim : ∀ i, (init tps n).aim i = none := by
    intro i
    cases hi : (init tps n).reqs[i]? with
    | none => rw [System.aim, hi]; rfl
    | some r =>
      obtain rfl := hreq i r hi
      exact aim_of_get hi
  refine ⟨fun t o ho => ?_, fun t ht => ?_, fun _ t _ o ho => (hget t o ho).2, (fun h => by cases h),
    fun _ t _ o ho => ?_, (fun _ h => by cases h), fun t _ o _ _ i hi => ?_, fun i t hi => ?_,
    fun i name ns hi => ?_, fun _ => haim⟩
  · rw [(hget t o ho).1]
    exact Pool.inv_init n
  · show t < (tps.map _).length
    rw [List.length_map]
    exact List.mem_range.1 ht
  · rw [(hget t o ho).1]
    rfl
  · rw [haim] at hi
    cases hi
  · rw [haim] at hi
    cases hi
  · cases hreq i _ hi

/-- **The reload is safe when its drains overlook no client**: for all
    configurations, any number of clients and every interleaving. -/
theorem reload_safe {tps : List Tp} {n : ℕ} {p : List (System × Move)}
    (h : Runs.Path step (init tps n) p s) (hC : ∀ x ∈ p, ¬ x.1.Overlooks x.2) :
    ∀ u ∈ Runs.visited p s, u.Safe := by
  intro u hu
  obtain ⟨q, hq, hpath⟩ := h.of_mem_visited u hu
  have hB : u.Barrier := hpath.inv_of (fun x hx => hC x (hq.subset hx)) (barrier_init tps n)
    fun _ _ _ hB hC hs => barrier_step hB hC hs
  exact hB.safe

end

/-- A client tests after `blockClients`; the reload goes through, and then the
    client goes on to the new transport. -/
def reloadAround : List Move :=
  [.client 0 msgPlain true, .main [], .main [], .client 0 [] true] ++ List.replicate 7 (.main []) ++
    .main [tpPlain] :: List.replicate 4 (.main []) ++ List.replicate 3 (.client 0 [] true)

/-- A client before the test of `blocked` or in its wait is not on its way. -/
theorem not_overlooks {s : System} {m : Move}
    (h : s.main.blocks → s.reqs = [.test msgPlain] ∨ s.reqs = [.wait msgPlain]) : ¬ s.Overlooks m := by
  have haim : s.main.blocks → ∀ i, s.aim i = none := by
    intro hb i
    rcases h hb with h | h <;> cases i <;> rw [System.aim, h] <;> rfl
  cases m with
  | main config =>
    rintro (⟨t, nodes, o, hm, -, -, i, hi, -⟩ | ⟨hm, i, hi⟩)
    · rw [haim (by rw [hm]; rfl)] at hi
      cases hi
    · rw [haim (by rw [hm]; rfl)] at hi
      cases hi
  | _ => exact id

/-- That run ends with the client in `tpSendMail`. -/
theorem reload_safe_around : ∃ p s, Runs.Path step (init [tpPlain] 1) p s ∧ s.reqs = [.send 1] ∧
    ∀ u ∈ Runs.visited p s, u.Safe := by
  have hend : (Runs.exec step (init [tpPlain] 1) reloadAround).map reqs = some [.send 1] := by decide
  obtain ⟨s, hs, hreqs⟩ := Option.map_eq_some_iff.1 hend
  have hblocked : ∀ x ∈ Runs.trace step (init [tpPlain] 1) reloadAround, x.1.main.blocks →
      x.1.reqs = [.test msgPlain] ∨ x.1.reqs = [.wait msgPlain] := by decide
  have hpath := Runs.Path.trace hs
  exact ⟨_, s, hpath, hreqs, reload_safe hpath fun x hx => not_overlooks (hblocked x hx)⟩

/-- A client is past the test when the reload begins, and is not counted. -/
def reloadUnder : List Move :=
  List.replicate 2 (.client 0 msgPlain true) ++ List.replicate 7 (.main []) ++
    List.replicate 2 (.client 0 [] true)

/-- It looks its transport up and enters `tpSendMail` when that has been freed. -/
theorem reload_overlooked : ∃ p s, Runs.Path step (init [tpPlain] 1) p s ∧
    p.map Prod.snd = reloadUnder ∧ s.Uses 0 0 ∧ (∃ o, s.heap[0]? = some o ∧ o.freed) ∧
    ¬ ∀ u ∈ Runs.visited p s, u.Safe := by
  have hend : (Runs.exec step (init [tpPlain] 1) reloadUnder).map
      (fun s => (s.reqs, s.heap.map fun o => (o.freed, o.pool.clients))) =
      some ([.send 0], [(true, [.call])]) := by decide
  obtain ⟨s, hs, hst⟩ := Option.map_eq_some_iff.1 hend
  obtain ⟨hreqs, hheap⟩ := Prod.mk.inj hst
  obtain ⟨p, hp, hacts⟩ := Runs.Path.nil.of_exec hs
  rw [List.nil_append] at hp
  have hobj : ∃ o, s.heap[0]? = some o ∧ (o.freed, o.pool.clients) = (true, [.call]) := by
    have hget := congrArg (fun l => l[0]?) hheap
    exact Option.map_eq_some_iff.1 (List.getElem?_map.symm.trans hget)
  obtain ⟨o, ho, hob⟩ := hobj
  obtain ⟨hfreed, hclients⟩ := Prod.mk.inj hob
  have huses : s.Uses 0 0 := by
    refine Or.inr ⟨by rw [hreqs]; rfl, ?_⟩
    rw [inSend_of_get ho, Pool.inTp, hclients]
    rfl
  refine ⟨p, s, hp, hacts, huses, ⟨o, ho, hfreed⟩, fun hsafe => ?_⟩
  obtain ⟨-, o', ho', hlive⟩ := (hsafe s (Runs.mem_visited_self p s)).live 0 0 huses
  obtain rfl := Option.some.inj (ho.symm.trans ho')
  rw [hfreed] at hlive
  cases hlive

end System

end SmtpProxy
