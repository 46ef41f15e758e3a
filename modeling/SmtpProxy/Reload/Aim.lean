/-
  What a client past the blocked test is on its way to (`aim`), and what the
  steps of the clients and of the pools do to it: they can only end it, or
  begin one while the clients are not blocked (`Serves`).
-/
import SmtpProxy.Pool.Threads
import SmtpProxy.Reload.State

namespace SmtpProxy

open CString

/-- What the clients and the threads of its pool leave of a transport. -/
structure TpObj.Kept (o o' : TpObj) : Prop where
  freed : o'.freed = o.freed
  inv : o.pool.Inv → o'.pool.Inv
  abort : o.pool.abort.Woken o'.pool.abort

theorem TpObj.Kept.refl (o : TpObj) : o.Kept o := ⟨rfl, id, Or.inl rfl⟩

namespace System

/-- The transport that a look-up finds from these nodes on. -/
def findIn (s : System) (name : Bytes) : List ℕ → Option ℕ
  | [] => none
  | t :: nodes =>
    if s.heap[t]?.any fun o => strcmp o.tp.name name then some t else s.findIn name nodes

/-- The client `i` is in `tpSendMail` with `t`. -/
def inSend (s : System) (i t : ℕ) : Bool := s.heap[t]?.any fun o => o.pool.inTp i

/-- What the client `i` is on its way to, or in; `some none`: to a look-up of
    a name that no transport has. -/
def aimOf (s : System) (i : ℕ) : Req → Option (Option ℕ)
  | .passed msg =>
    let e := prepareSendMail (msg ++ [0]) [] 1024
    if e.ret then some (s.findIn e.sender s.transports) else none
  | .look name nodes => some (s.findIn name nodes)
  | .send t => if s.inSend i t then some (some t) else none
  | _ => none

def aim (s : System) (i : ℕ) : Option (Option ℕ) := s.reqs[i]?.bind (s.aimOf i)

/-- What the clients and the pools leave of the system. -/
structure Serves (s s' : System) : Prop where
  tps : s'.heap.map TpObj.tp = s.heap.map TpObj.tp
  transports : s'.transports = s.transports
  blocked : s'.blocked = s.blocked
  main : s'.main = s.main
  heap : ∀ (t : ℕ) (o' : TpObj), s'.heap[t]? = some o' → ∃ o, s.heap[t]? = some o ∧ o.Kept o'
  nodes : ∀ (i : ℕ) (name : Bytes) (ns : List ℕ), s'.reqs[i]? = some (.look name ns) →
    (∃ ms, s.reqs[i]? = some (.look name ms) ∧ ns ⊆ ms) ∨ ns ⊆ s.transports
  aim : ∀ i, s'.aim i = s.aim i ∨ s'.aim i = none ∨
    s.blocked = false ∧ ∃ name, s'.aim i = some (s.findIn name s.transports)

section
variable {s s' : System} {i j t : ℕ} {r r' : Req} {o o' : TpObj}

/-! ## Views of an unchanged part -/

theorem findIn_congr (h : s'.heap.map TpObj.tp = s.heap.map TpObj.tp) (name : Bytes)
    (nodes : List ℕ) : s'.findIn name nodes = s.findIn name nodes := by
  induction nodes with
  | nil => rfl
  | cons t nodes ih =>
    have hname : (s'.heap[t]?.any fun o => strcmp o.tp.name name) =
        s.heap[t]?.any fun o => strcmp o.tp.name name := by
      have hget := congrArg (fun l : List Tp => l[t]?.any fun tp => strcmp tp.name name) h
      simpa only [List.getElem?_map, Option.any_map] using hget
    rw [findIn, findIn, hname, ih]

theorem findIn_mem {name : Bytes} : ∀ {nodes : List ℕ}, s.findIn name nodes = some t → t ∈ nodes
  | u :: nodes, h => by
    rw [findIn] at h
    split at h
    · obtain rfl := Option.some.inj h
      exact List.mem_cons_self
    · exact List.mem_cons_of_mem _ (findIn_mem h)

theorem aimOf_congr (h₁ : s'.heap.map TpObj.tp = s.heap.map TpObj.tp)
    (h₂ : s'.transports = s.transports) (h₃ : ∀ t, r = .send t → s'.inSend i t = s.inSend i t) :
    s'.aimOf i r = s.aimOf i r := by
  cases r with
  | passed msg => simp only [aimOf, findIn_congr h₁, h₂]
  | look name nodes => simp only [aimOf, findIn_congr h₁]
  | send t => simp only [aimOf, h₃ t rfl]
  | read | test | wait | woken | reply => rfl

theorem aim_congr (h₁ : s'.heap.map TpObj.tp = s.heap.map TpObj.tp)
    (h₂ : s'.transports = s.transports) (h₃ : s'.reqs[i]? = s.reqs[i]?)
    (h₄ : ∀ t, s.reqs[i]? = some (.send t) → s'.inSend i t = s.inSend i t) : s'.aim i = s.aim i := by
  rw [System.aim, System.aim, h₃]
  cases hr : s.reqs[i]? with
  | none => rfl
  | some r => exact aimOf_congr h₁ h₂ fun t ht => h₄ t (by rw [hr, ht])

theorem aim_of_get (h : s.reqs[i]? = some r) : s.aim i = s.aimOf i r := by
  rw [System.aim, h]; rfl

/-- A client is on its way or not, whatever the list and the names are. -/
theorem aim_eq_none_congr (h : s.aim i = none) (h₁ : s'.reqs[i]? = s.reqs[i]?)
    (h₂ : ∀ t, s'.inSend i t = s.inSend i t) : s'.aim i = none := by
  rw [System.aim, h₁]
  cases hr : s.reqs[i]? with
  | none => rfl
  | some r =>
    rw [aim_of_get hr] at h
    cases r with
    | passed msg =>
      simp only [aimOf] at h ⊢
      show s'.aimOf i (.passed msg) = none
      simp only [aimOf]
      split
      · rename_i he
        rw [if_pos he] at h
        cases h
      · rfl
    | look name nodes => cases h
    | send t => exact (by simp only [aimOf, h₂ t] : s'.aimOf i (.send t) = s.aimOf i (.send t)).trans h
    | read | test | wait | woken | reply => rfl

theorem inSend_of_get (h : s.heap[t]? = some o) : s.inSend i t = o.pool.inTp i := by
  rw [inSend, h]; rfl

theorem get_setTp (ho : s.heap[t]? = some o) (u : ℕ) :
    (s.setTp t o').heap[u]? = if u = t then some o' else s.heap[u]? := Pool.get_set ho

theorem tps_setTp (ho : s.heap[t]? = some o) (h : o'.tp = o.tp) :
    (s.setTp t o').heap.map TpObj.tp = s.heap.map TpObj.tp := by
  ext1 u
  rw [List.getElem?_map, get_setTp ho, List.getElem?_map]
  split
  · subst u
    rw [ho]
    exact congrArg some h
  · rfl

/-! ## Clients -/

theorem Serves.refl (s : System) : Serves s s where
  tps := rfl
  transports := rfl
  blocked := rfl
  main := rfl
  heap := fun _ o ho => ⟨o, ho, .refl o⟩
  nodes := fun _ _ ns h => Or.inl ⟨ns, h, fun _ => id⟩
  aim := fun _ => Or.inl rfl

/-- The client `i` goes on after the step. -/
theorem Serves.setReq (h : Serves s s') (hi : s'.reqs[i]? = some r)
    (hn : ∀ name ns, r' = .look name ns → (∃ ms, r = .look name ms ∧ ns ⊆ ms) ∨ ns ⊆ s'.transports)
    (ha : s'.aimOf i r' = s'.aimOf i r ∨ s'.aimOf i r' = none ∨
      s'.blocked = false ∧ ∃ name, s'.aimOf i r' = some (s'.findIn name s'.transports)) :
    Serves s (s'.setReq i r') := by
  have hget : ∀ j, (s'.setReq i r').reqs[j]? = if j = i then some r' else s'.reqs[j]? :=
    fun j => Pool.get_set hi
  refine ⟨h.tps, h.transports, h.blocked, h.main, h.heap, fun j name ns hj => ?_, fun j => ?_⟩
  · rw [hget] at hj
    split at hj
    · subst j
      rcases hn name ns (Option.some.inj hj) with ⟨ms, rfl, hsub⟩ | hsub
      · rcases h.nodes i name ms hi with ⟨ls, hls, hsub'⟩ | hsub'
        · exact Or.inl ⟨ls, hls, List.Subset.trans hsub hsub'⟩
        · exact Or.inr (List.Subset.trans hsub hsub')
      · exact Or.inr (h.transports ▸ hsub)
    · exact h.nodes j name ns hj
  · by_cases hji : j = i
    · subst hji
      have haim : (s'.setReq j r').aim j = s'.aimOf j r' :=
        (aim_of_get ((hget j).trans (if_pos rfl))).trans (aimOf_congr rfl rfl fun _ _ => rfl)
      rw [haim]
      rcases ha with ha | ha | ⟨hb, name, ha⟩
      · rw [ha, ← aim_of_get hi]; exact h.aim j
      · exact Or.inr (Or.inl ha)
      · refine Or.inr (Or.inr ⟨h.blocked ▸ hb, name, ?_⟩)
        rw [ha, h.transports, findIn_congr h.tps]
    · have haim : (s'.setReq i r').aim j = s'.aim j :=
        aim_congr rfl rfl ((hget j).trans (if_neg hji)) fun _ _ => rfl
      rw [haim]
      exact h.aim j

theorem poolStep_eq_some {a : Action} : s.poolStep t a = some s' ↔ ∃ o pool,
    s.heap[t]? = some o ∧ o.pool.step o.tp a = some pool ∧
      s' = s.setTp t { o with pool := pool } := by
  unfold poolStep
  constructor
  · intro h
    obtain ⟨o, ho, h⟩ := Option.bind_eq_some_iff.1 h
    obtain ⟨pool, hp, rfl⟩ := Option.map_eq_some_iff.1 h
    exact ⟨o, pool, ho, hp, rfl⟩
  · rintro ⟨o, pool, ho, hp, rfl⟩
    simp [ho, hp]

/-- A step in a pool, of another thread than `abortTpConns`. -/
theorem serves_poolStep {a : Action} (ha : a ≠ .abort) (h : s.poolStep t a = some s')
    (hout : ∀ i ok, a = .client i ok → s.reqs[i]? = some (.send t) →
      ∀ o, s.heap[t]? = some o → o.pool.clients[i]? ≠ some .out) : Serves s s' := by
  obtain ⟨o, pool, ho, hp, rfl⟩ := poolStep_eq_some.1 h
  have hleaves := Pool.leaves_of_step ha hp
  refine ⟨tps_setTp ho rfl, rfl, rfl, rfl, fun u o' hu => ?_,
    fun _ _ ns h => Or.inl ⟨ns, h, fun _ => id⟩, fun j => ?_⟩
  · rw [get_setTp ho] at hu
    split at hu
    · subst u
      obtain rfl := Option.some.inj hu
      exact ⟨o, ho, rfl, fun hI => Pool.inv_trans hI (Pool.trans_of_step hp), hleaves.abort⟩
    · exact ⟨o', hu, .refl o'⟩
  · have hsend : ∀ u, u ≠ t ∨ (∀ ok, a ≠ .client j ok) →
        (s.setTp t { o with pool := pool }).inSend j u = s.inSend j u := by
      intro u hu
      unfold inSend
      rw [get_setTp ho]
      split
      · subst u
        rw [ho]
        exact hleaves.client j (hu.resolve_left fun h => h rfl)
      · rfl
    by_cases hj : (∃ ok, a = .client j ok) ∧ s.reqs[j]? = some (.send t)
    · obtain ⟨⟨ok, rfl⟩, hr⟩ := hj
      have hin : s.inSend j t = o.pool.inTp j := inSend_of_get ho
      have hin' : (s.setTp t { o with pool := pool }).inSend j t = pool.inTp j :=
        inSend_of_get ((get_setTp ho t).trans (if_pos rfl))
      rw [aim_of_get (s := s) hr, aim_of_get (s := s.setTp t _) hr]
      simp only [aimOf, hin, hin']
      cases hpc : o.pool.inTp j with
      | true => cases pool.inTp j <;> simp
      | false =>
        have hret := Pool.inTp_of_ret hp hpc (hout j ok rfl hr o ho)
        simp [hret]
    · refine Or.inl (aim_congr (tps_setTp ho rfl) rfl rfl fun u hu => hsend u ?_)
      by_cases hut : u = t
      · exact Or.inr fun ok hok => hj ⟨⟨ok, hok⟩, hut ▸ hu⟩
      · exact Or.inl hut

/-- The client `i` goes where it is on no way. -/
theorem serves_leave (hi : s.reqs[i]? = some r) (hn : ∀ name ns, r' ≠ .look name ns)
    (ha : s.aimOf i r' = none) : Serves s (s.setReq i r') :=
  (Serves.refl s).setReq hi (fun name ns h => absurd h (hn name ns)) (Or.inr (Or.inl ha))

theorem serves_testBlocked {msg : Bytes} (hi : s.reqs[i]? = some r) :
    Serves s (s.testBlocked i msg) := by
  unfold testBlocked
  cases hb : s.blocked with
  | true => exact serves_leave hi (fun _ _ => Req.noConfusion) rfl
  | false =>
    refine (Serves.refl s).setReq hi (fun _ _ h => by cases h) ?_
    by_cases he : (prepareSendMail (msg ++ [0]) [] 1024).ret
    · exact Or.inr (Or.inr ⟨hb, _, if_pos he⟩)
    · exact Or.inr (Or.inl (if_neg he))

theorem serves_startSend {msg : Bytes} (hi : s.reqs[i]? = some (.passed msg)) :
    Serves s (s.startSend i msg) := by
  cases he : (prepareSendMail (msg ++ [0]) [] 1024).ret with
  | true =>
    have hs : s.startSend i msg =
        s.setReq i (.look (prepareSendMail (msg ++ [0]) [] 1024).sender s.transports) := by
      simp only [startSend, he, if_true]
    rw [hs]
    refine (Serves.refl s).setReq hi ?_ (Or.inl (if_pos he).symm)
    rintro name ns ⟨⟩
    exact Or.inr fun _ => id
  | false =>
    have hs : s.startSend i msg = s.setReq i .reply := by simp [startSend, he]
    rw [hs]
    exact serves_leave hi (fun _ _ => Req.noConfusion) rfl

theorem serves_findTpByName {name : Bytes} {ns : List ℕ} {ok : Bool}
    (hi : s.reqs[i]? = some (.look name (t :: ns)))
    (h : s.findTpByName i name t ns ok = some s') : Serves s s' := by
  obtain ⟨o, ho, h⟩ := Option.bind_eq_some_iff.1 h
  have hfind : s.findIn name (t :: ns) =
      if strcmp o.tp.name name then some t else s.findIn name ns := by
    rw [findIn, ho]; rfl
  split at h
  · rename_i hname
    split at h
    · obtain ⟨u, hu, rfl⟩ := Option.map_eq_some_iff.1 h
      have hserves : Serves s u := by
        refine serves_poolStep (by simp) hu fun j ok' hj hsend => ?_
        obtain ⟨rfl, -⟩ := Action.client.inj hj
        cases hi.symm.trans hsend
      obtain ⟨o', pool, -, -, rfl⟩ := poolStep_eq_some.1 hu
      refine hserves.setReq hi (fun _ _ h => by cases h) ?_
      cases hin : (s.setTp t { o' with pool := pool }).inSend i t with
      | true =>
        refine Or.inl ((if_pos hin).trans (congrArg some ?_))
        rw [findIn_congr hserves.tps, hfind, if_pos hname]
      | false => exact Or.inr (Or.inl (if_neg (by simp [hin])))
    · cases h
  · rename_i hname
    obtain rfl := Option.some.inj h
    refine (Serves.refl s).setReq hi ?_ (Or.inl ?_)
    · rintro name' ns' ⟨⟩
      exact Or.inl ⟨t :: ns, rfl, List.subset_cons_self _ _⟩
    · show some (s.findIn name ns) = some (s.findIn name (t :: ns))
      rw [hfind, if_neg hname]

theorem serves_sendStep {ok : Bool} (hi : s.reqs[i]? = some (.send t))
    (h : s.sendStep i t ok = some s') : Serves s s' := by
  obtain ⟨o, ho, h⟩ := Option.bind_eq_some_iff.1 h
  split at h
  · cases h
  · rename_i hout
    obtain ⟨u, hu, rfl⟩ := Option.map_eq_some_iff.1 h
    have hserves : Serves s u := by
      refine serves_poolStep (by simp) hu fun j ok' hj _ o' ho' => ?_
      obtain ⟨rfl, -⟩ := Action.client.inj hj
      obtain rfl := Option.some.inj (ho.symm.trans ho')
      exact hout
    obtain ⟨o', pool, -, -, rfl⟩ := poolStep_eq_some.1 hu
    split
    · exact hserves.setReq hi (fun _ _ h => by cases h) (Or.inr (Or.inl rfl))
    · exact hserves

/-- **What the client threads leave of the system.** -/
theorem serves_reqStep {msg : Bytes} {ok : Bool} (hi : s.reqs[i]? = some r)
    (h : s.reqStep i msg ok r = some s') : Serves s s' := by
  cases r with
  | read | reply =>
    obtain rfl := Option.some.inj h
    exact serves_leave hi (fun _ _ => Req.noConfusion) rfl
  | test msg | woken msg =>
    obtain rfl := Option.some.inj h
    exact serves_testBlocked hi
  | wait => cases h
  | passed msg =>
    obtain rfl := Option.some.inj h
    exact serves_startSend hi
  | look name ns =>
    cases ns with
    | nil =>
      obtain rfl := Option.some.inj h
      exact serves_leave hi (fun _ _ => Req.noConfusion) rfl
    | cons t ns => exact serves_findTpByName hi h
  | send t => exact serves_sendStep hi h

/-- **What all steps but those of the reload leave of the system.** -/
theorem serves_of_step {m : Move} (hm : ∀ config, m ≠ .main config) (h : s.step m = some s') :
    Serves s s' := by
  cases m with
  | client i msg ok =>
    obtain ⟨r, hi, h⟩ := Option.bind_eq_some_iff.1 h
    exact serves_reqStep hi h
  | spurious i =>
    obtain ⟨r, hi, h⟩ := Option.bind_eq_some_iff.1 h
    split at h
    · obtain rfl := Option.some.inj h
      exact (Serves.refl s).setReq hi (fun _ _ h => by cases h) (Or.inl rfl)
    · cases h
  | main config => exact absurd rfl (hm config)
  | pool t a =>
    simp only [step] at h
    split at h
    · rename_i ha
      refine serves_poolStep ?_ h ?_
      · rintro rfl
        cases ha
      · rintro i ok rfl
        cases ha
    · cases h

end

end System

end SmtpProxy
