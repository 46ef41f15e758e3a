/-
  The pool with the lists of its connections in memory.

  `busyConns`, `idleConns` and `noopConns` are lists of dllist.c here.  The threads
  read their `count` and `head->data`, and change them with `dllistMvNode`,
  `dllistAppend` and `dllistDelete`, through `conn->node`.  The functions are those
  of Pool/State; what they do besides is done to a pool without lists.

  * `PoolMem.step`: one step, which fails where the code would go through a pointer
    that is NULL or freed;
  * `Layout`: the nodes of the lists are those of the connections of a pool, in the
    same order, and no other nodes are allocated;
  * `follows_step`: a step does to the lists in memory what it does to the pool;
  * `conns_in_memory`: **the same for every run**.
-/
import SmtpProxy.Dllist.Refine
import SmtpProxy.Pool.Invariant

namespace SmtpProxy

/-- The lists of a transport in memory. -/
def Status.list : Status → ℕ
  | .busy => 0
  | .idle => 1
  | .noop => 2

/-- The pool without its lists. -/
def Pool.bare (s : Pool) : Pool :=
  { s with busyConns := ⟨[], 0⟩, idleConns := ⟨[], 0⟩, noopConns := ⟨[], 0⟩ }

/-- The thread is not blocked, and has not ended. -/
def Pool.Ready (s : Pool) : Action → Prop
  | .client i _ => ∃ pc, s.clients[i]? = some pc ∧ pc ≠ .wait
  | .noop c _ => ∃ k, s.conns[c]? = some k ∧ k.pc ≠ .wait ∧ k.pc ≠ .exited
  | .abort => s.abort ≠ .waitIdle ∧ s.abort ≠ .waitEnd ∧ s.abort ≠ .done
  | _ => False

/-- `rest` is the pool without its lists, which are in `mem`. -/
structure PoolMem where
  rest : Pool
  mem : Dllists

namespace PoolMem

def init (n : ℕ) : PoolMem := ⟨Pool.init n, .empty⟩

/-! ## The steps -/

section
variable (m : PoolMem)

def count (st : Status) : ℤ := (m.mem.list st.list).count

/-- A change beside the lists. -/
def on (f : Pool → Pool) : PoolMem := { m with rest := f m.rest }

/-- A section under `tp->mtx`. -/
def locked (t : PoolMem) : Option PoolMem := if m.rest.mtx = none then some t else none

def dllistMvNode (a : Status) (node : ℕ) (b : Status) : Option PoolMem :=
  (m.mem.dllistMvNode a.list node b.list).map fun mem => { m with mem := mem }

/-- `conn->status = b; dllistMvNode(tp->aConns, conn->node, tp->bConns)` -/
def move (c : ℕ) (a b : Status) : Option PoolMem :=
  (m.mem.node c).bind fun node =>
    (m.on fun s => s.updConn c fun k => { k with status := b }).dllistMvNode a node b

/-- `node = tp->idleConns->head; conn = node->data; ..` -/
def takeIdle (i : ℕ) : Option PoolMem :=
  (m.mem.list Status.idle.list).head.bind fun node =>
  (m.mem.heap.get node).bind fun k => k.data.bind fun c =>
    ((m.on fun s => s.updConn c fun k => { k with status := .busy }).dllistMvNode .idle node .busy).map
      (on · fun s => s.setClient i (.got c false))

variable (tp : Tp)

/-- `getAnIdleConn` from the test of its wait loop on. -/
def waitLoop (i : ℕ) : Option PoolMem :=
  if m.count .idle = 0 ∧ m.count .busy + m.count .noop = tp.maxConn then
    some (m.on fun s => s.setClient i .wait)
  else
    let m := m.on fun s => { s with waiting := s.waiting - 1 }
    if m.count .idle ≠ 0 then m.takeIdle i else some (m.on fun s => s.startConn i)

/-- `getAnIdleConn` up to its wait. -/
def getAnIdleConn (i : ℕ) : Option PoolMem :=
  if m.count .idle ≠ 0 then m.takeIdle i
  else if m.count .busy + m.count .noop < tp.maxConn then some (m.on fun s => s.startConn i)
  else (m.on fun s => { s with waiting := s.waiting + 1 }).waitLoop tp i

/-- `newConn` succeeds: `dllistAppend(tp->busyConns, conn)`. -/
def connAdded (i node : ℕ) : Option PoolMem :=
  let c := m.rest.conns.length
  (m.mem.dllistAppend Status.busy.list c node).map fun mem =>
    ⟨{ m.rest with mtx := none, conns := m.rest.conns ++ [Conn.added] }.setClient i (.got c true), mem⟩

/-- `busy -> idle` -/
def releaseConn (i c : ℕ) : Option PoolMem :=
  ((m.on fun s => { s with totalSend := s.totalSend + 1, todaySend := s.todaySend + 1 }).move
    c .busy .idle).map (on · fun s => s.setClient i (.bcast c))

/-- The section at `end:`. -/
def retireConn (i c : ℕ) (ret : Bool) : Option PoolMem :=
  let m := if ret then
    m.on fun s => { s with totalSend := s.totalSend + 1, todaySend := s.todaySend + 1 } else m
  ((m.on fun s => s.updConn c fun k => { k with endFlag := true }).move c .busy .noop).map
    (on · fun s => s.setClient i (.signal c ret))

/-- A step of the client `i`; `node` is what `calloc` returns. -/
def clientStep (i : ℕ) (ok : Bool) (node : ℕ) : ClientPc → Option PoolMem
  | .call => (m.getAnIdleConn tp i).bind m.locked
  | .woken => (m.waitLoop tp i).bind m.locked
  | .setup => if ok then m.connAdded i node else some (m.on fun s => s.connFailed i)
  | .release c => (m.releaseConn i c).bind m.locked
  | .retire c ret => (m.retireConn i c ret).bind m.locked
  | pc => (m.rest.clientStep tp i ok pc).map fun rest => { m with rest := rest }

/-- `endConn`: `dllistDelete(tp->noopConns, conn)` and unlock. -/
def endConnDelete (c : ℕ) : Option PoolMem :=
  (m.mem.dllistDelete Status.noop.list (some c)).map fun mem =>
    ⟨{ m.rest with mtx := none }.setPc c .destroy, mem⟩

/-- `idle -> noop`, from the test of the wait loop on. -/
def noopTop (c : ℕ) (k : Conn) : Option PoolMem :=
  if k.status = .busy ∨ (k.status = .idle ∧ 0 < m.rest.waiting) then
    some (m.on fun s => s.setPc c .wait)
  else
    (if k.status = .idle then m.move c .idle .noop else some m).map
      (on · fun s => if k.endFlag then s.endConnLocked c else s.setPc c .count)

/-- `noop -> idle` -/
def noopBack (c : ℕ) (k : Conn) : Option PoolMem :=
  if k.endFlag then some (m.on fun s => s.endConnLocked c)
  else (m.move c .noop .idle).map (on · fun s => s.setPc c .bcast)

/-- A step of the thread of the connection `c`. -/
def noopStep (c : ℕ) (ok : Bool) (k : Conn) : Option PoolMem :=
  match k.pc with
  | .top | .woken => (m.noopTop c k).bind m.locked
  | .relock => (m.noopBack c k).bind m.locked
  | .closeHeld => (m.on fun s => s.updConn c fun k => { k with sockOpen := false }).endConnDelete c
  | .delete => (m.endConnDelete c).bind m.locked
  | _ => (m.rest.noopStep tp c ok k).map fun rest => { m with rest := rest }

/-- Called with `node->data`; `none`: that is NULL. -/
def setEndFlag (_ : ℕ) (data : Option ℕ) (s : Option Pool) : ℤ × Option Pool :=
  (1, data.bind fun c => s.map fun s => s.updConn c fun k => { k with endFlag := true })

/-- `dllistVisit(…, setEndFlag, NULL)`, for `count` nodes at most. -/
def setEndFlags (st : Status) : Option PoolMem :=
  (m.mem.dllistVisit setEndFlag ((m.count st).toNat + 1) st.list (some m.rest)).bind fun v =>
    v.1.arg.map fun rest => { m with rest := rest }

/-- The wait for the connections to end. -/
def endLoop : PoolMem :=
  m.on fun s => { s with abort := if m.count .noop + m.count .idle > 0 then .waitEnd else .done }

/-- The wait for the clients, then the flags. -/
def abortLoop : Option PoolMem :=
  if m.count .busy ≠ 0 ∨ 0 < m.rest.waiting then some (m.on fun s => { s with abort := .waitIdle })
  else
    (if m.count .noop ≠ 0 then m.setEndFlags .noop else some m).bind fun m =>
    (if m.count .idle ≠ 0 then m.setEndFlags .idle else some m).map endLoop

def abortStep : Option PoolMem :=
  match m.rest.abort with
  | .start | .wokenIdle => m.abortLoop.bind m.locked
  | .wokenEnd => m.locked m.endLoop
  | _ => m.rest.abortStep.map fun rest => { m with rest := rest }

end

/-- One step, with what `calloc` would return in it: a name that is not in use. -/
def step (tp : Tp) (m : PoolMem) (a : Action × ℕ) : Option PoolMem :=
  if m.mem.heap.get a.2 = none then
    match a.1 with
    | .client i ok => m.rest.clients[i]?.bind fun pc => m.clientStep tp i ok a.2 pc
    | .noop c ok => m.rest.conns[c]?.bind fun k => m.noopStep tp c ok k
    | .abort => m.abortStep
    | act => (m.rest.step tp act).map fun rest => { m with rest := rest }
  else none

/-! ## The layout -/

/-- The lists in memory are those of `s`: their nodes are those of its connections, in the
    same order, and each connection names its node; other lists are empty, and no other
    nodes are allocated. -/
structure Layout (m : PoolMem) (s : Pool) (A : Seqs) : Prop where
  rest : m.rest = s.bare
  mem : m.mem.Represents A
  wf : A.Wf
  named : A.Named
  seq : ∀ st : Status, A.seq st.list = (s.list st).nodes.map some
  others : ∀ i, (∀ st : Status, i ≠ st.list) → A.nodes i = []
  owned : ∀ n, A.data n ≠ none → ∃ i, n ∈ A.nodes i

def Represents (m : PoolMem) (s : Pool) : Prop := ∃ A, m.Layout s A

section
variable {m m' : PoolMem} {s t : Pool} {A : Seqs} {tp : Tp} {a b st : Status} {c d n i j : ℕ}

theorem list_injective : Function.Injective Status.list := by
  intro a b h
  cases a <;> cases b <;> first | rfl | cases h

theorem layout_init (n : ℕ) : (init n).Layout (Pool.init n) Dllists.empty.seqs where
  rest := rfl
  mem := Dllists.represents_seqs fun _ => rfl
  wf := Dllists.wf_seqs
  named := nofun
  seq st := by cases st <;> rfl
  others _ _ := rfl
  owned _ h := absurd rfl h

theorem Layout.count_eq (h : m.Layout s A) (hL : s.Lists) (st : Status) :
    m.count st = (s.list st).count := by
  have hlen : (A.seq st.list).length = (s.list st).nodes.length := by rw [h.seq, List.length_map]
  rw [PoolMem.count, h.mem.count, hL.count, ← hlen, Seqs.seq, List.length_map]

/-- The node of a connection that is in a list. -/
theorem Layout.exists_node (h : m.Layout s A) (hc : c ∈ (s.list st).nodes) :
    ∃ n ∈ A.nodes st.list, A.data n = some (some c) ∧ A.node c = some n := by
  have hmem : some c ∈ A.seq st.list := by
    rw [h.seq]
    exact List.mem_map_of_mem hc
  obtain ⟨n, hn, hdata⟩ := List.mem_map.1 hmem
  have hdata : A.data n = some (some c) := Option.join_eq_some_iff.1 hdata
  exact ⟨n, hn, hdata, h.named _ n hn c hdata⟩

/-- `dllistMvNode` of the node of a connection. -/
theorem Layout.mvNode (h : m.Layout s A) (hn : n ∈ A.nodes a.list) (hdata : A.data n = some (some c))
    (hab : a ≠ b) (ht : ∀ st, t.list st = (s.move c a b).list st) :
    ∃ mem, m.mem.dllistMvNode a.list n b.list = some mem ∧ Represents ⟨t.bare, mem⟩ t := by
  obtain ⟨mem, hmem, hR, -⟩ := Dllists.represents_step h.mem h.wf (a := .mvNode a.list n b.list) hn
  refine ⟨mem, hmem, _, rfl, hR, Seqs.wf_step h.wf hn,
    (Seqs.named_step_iff h.wf h.named (a := .mvNode a.list n b.list) hn).2 trivial,
    fun st => ?_, fun i hi => ?_, fun k hk => ?_⟩
  · rw [ht, Pool.move_list _ _ _ _ _ hab, Seqs.step, Seqs.seq_add,
      Seqs.seq_remove h.named hn hdata, Seqs.seq_remove h.named hn hdata, Seqs.data_remove, hdata]
    simp only [list_injective.eq_iff, if_neg hab.symm, h.seq]
    split
    · rw [SmtpProxy.dllistAppend, List.map_append]
      rfl
    · split
      · exact (List.map_erase (fun _ _ => Option.some.inj) _).symm
      · rfl
  · rw [Seqs.step, Seqs.nodes_add_of_ne (hi b), Seqs.nodes_remove_of_ne (hi a), h.others i hi]
  · obtain ⟨i, hi⟩ := h.owned k hk
    by_cases hkn : k = n
    · exact ⟨b.list, Seqs.mem_add.2 (Or.inr ⟨rfl, hkn⟩)⟩
    · exact ⟨i, Seqs.mem_add.2 (Or.inl (h.wf.mem_remove.2 ⟨hi, fun he => hkn he.2⟩))⟩

/-- `dllistAppend` of a new connection. -/
theorem Layout.append (h : m.Layout s A) (hfree : m.mem.heap.get n = none)
    (hc : ∀ st, c ∉ (s.list st).nodes)
    (ht : ∀ st, t.list st = if st = b then SmtpProxy.dllistAppend (s.list b) c else s.list st) :
    ∃ mem, m.mem.dllistAppend b.list c n = some mem ∧ Represents ⟨t.bare, mem⟩ t := by
  have hn : A.data n = none := by rw [← h.mem.data, hfree, Option.map_none]
  have hno : ∀ j, n ∉ A.nodes j := fun j hj => h.wf.alive j n hj hn
  have hdata : ∀ j, ∀ k ∈ A.nodes j, A.data k ≠ some (some c) := by
    intro j k hk hd
    by_cases hj : ∃ st : Status, j = st.list
    · obtain ⟨st, rfl⟩ := hj
      have hmem : some c ∈ A.seq st.list := List.mem_map.2 ⟨k, hk, by rw [hd]; rfl⟩
      rw [h.seq] at hmem
      obtain ⟨c', hc', he⟩ := List.mem_map.1 hmem
      exact hc st (Option.some.inj he ▸ hc')
    · rw [h.others j fun st he => hj ⟨st, he⟩] at hk
      cases hk
  obtain ⟨mem, hmem, hR, -⟩ :=
    Dllists.represents_step h.mem h.wf (a := .append b.list c n) ⟨hn, hdata⟩
  refine ⟨mem, hmem, _, rfl, hR, Seqs.wf_step h.wf ⟨hn, hdata⟩,
    (Seqs.named_step_iff h.wf h.named (a := .append b.list c n) ⟨hn, hdata⟩).2 trivial,
    fun st => ?_, fun i hi => ?_, fun k hk => ?_⟩
  · have hsame : ∀ j, ((A.setData n (some (some c))).setNode c (some n)).seq j = A.seq j :=
      fun j => Seqs.seq_setData (hno j)
    rw [ht, Seqs.step, Seqs.seq_add, hsame, hsame, Seqs.data_setNode, Seqs.data_setData_self]
    simp only [list_injective.eq_iff, h.seq]
    split
    · rw [SmtpProxy.dllistAppend, List.map_append]
      rfl
    · rfl
  · rw [Seqs.step, Seqs.nodes_add_of_ne (hi b)]
    exact h.others i hi
  · by_cases hkn : k = n
    · exact ⟨b.list, Seqs.mem_add.2 (Or.inr ⟨rfl, hkn⟩)⟩
    · have hk' : A.data k ≠ none := by
        rwa [Seqs.step, Seqs.data_add, Seqs.data_setNode, Seqs.data_setData_of_ne hkn] at hk
      obtain ⟨i, hi⟩ := h.owned k hk'
      exact ⟨i, Seqs.mem_add.2 (Or.inl hi)⟩

/-- `dllistDelete` of a connection. -/
theorem Layout.delete (h : m.Layout s A) (hc : c ∈ (s.list a).nodes)
    (ht : ∀ st, t.list st = if st = a then SmtpProxy.dllistDelete (s.list a) c else s.list st) :
    ∃ mem, m.mem.dllistDelete a.list (some c) = some mem ∧ Represents ⟨t.bare, mem⟩ t := by
  obtain ⟨n, hn, hdata, hname⟩ := h.exists_node hc
  have hallowed : A.Allowed (.delete a.list (some c)) := fun k hk => by
    obtain rfl := Option.some.inj (hname.symm.trans hk)
    exact hn
  have hstep : A.step (.delete a.list (some c)) =
      ((A.remove a.list n).setData n none).setNode c none := by rw [Seqs.step, hname]
  obtain ⟨mem, hmem, hR, -⟩ := Dllists.represents_step h.mem h.wf hallowed
  have hW := Seqs.wf_step h.wf hallowed
  have hN := (Seqs.named_step_iff h.wf h.named hallowed).2 trivial
  rw [hstep] at hR hW hN
  refine ⟨mem, hmem, _, rfl, hR, hW, hN, fun st => ?_, fun i hi => ?_, fun k hk => ?_⟩
  · have hsame : (((A.remove a.list n).setData n none).setNode c none).seq st.list =
        (A.remove a.list n).seq st.list :=
      Seqs.seq_setData (h.wf.not_mem_remove hn _)
    rw [ht, hsame, Seqs.seq_remove h.named hn hdata]
    simp only [list_injective.eq_iff, h.seq]
    split
    · exact (List.map_erase (fun _ _ => Option.some.inj) _).symm
    · rfl
  · exact (Seqs.nodes_remove_of_ne (hi a)).trans (h.others i hi)
  · have hkn : k ≠ n := by
      rintro rfl
      exact hk Seqs.data_setData_self
    have hk' : A.data k ≠ none := by
      rwa [Seqs.data_setNode, Seqs.data_setData_of_ne hkn, Seqs.data_remove] at hk
    obtain ⟨i, hi⟩ := h.owned k hk'
    exact ⟨i, h.wf.mem_remove.2 ⟨hi, fun he => hkn he.2⟩⟩

end

/-! ## The steps keep to the pool -/

/-- What is done beside the lists. -/
structure Beside (f : Pool → Pool) : Prop where
  bare : ∀ s, f s.bare = (f s).bare
  list : ∀ s st, (f s).list st = s.list st

/-- The outcome in memory is that of the pool. -/
abbrev Follows (o : Option PoolMem) (p : Option Pool) : Prop := Option.Rel Represents o p

section
variable {m : PoolMem} {s t : Pool} {A : Seqs} {tp : Tp} {a b : Status} {c n i : ℕ}
  {o : Option PoolMem} {p : Option Pool} {f g : Pool → Pool}

theorem Represents.rest (h : m.Represents s) : m.rest = s.bare := h.elim fun _ h => Layout.rest h

theorem Represents.on (h : m.Represents s) (hf : Beside f) : (m.on f).Represents (f s) := by
  obtain ⟨A, h⟩ := h
  refine ⟨A, ?_, h.mem, h.wf, h.named, fun st => ?_, h.others, h.owned⟩
  · rw [← hf.bare, ← h.rest]
    rfl
  · rw [hf.list, h.seq]

theorem Follows.on (h : Follows o p) (hf : Beside f) : Follows (o.map (PoolMem.on · f)) (p.map f) := by
  cases h with
  | none => exact .none
  | some h => exact .some (h.on hf)

theorem Follows.locked (h : Follows o p) (hm : m.Represents s) :
    Follows (o.bind m.locked) (p.bind s.locked) := by
  cases h with
  | none => exact .none
  | some h =>
    have hmtx : m.rest.mtx = s.mtx := by rw [hm.rest]; rfl
    rw [Option.bind_some, Option.bind_some, PoolMem.locked, Pool.locked, hmtx]
    split
    · exact .some h
    · exact .none

theorem Represents.count_eq (h : m.Represents s) (hL : s.Lists) (st : Status) :
    m.count st = (s.list st).count := by
  obtain ⟨A, h⟩ := h
  have hlen : (A.seq st.list).length = (s.list st).nodes.length := by rw [h.seq, List.length_map]
  rw [PoolMem.count, h.mem.count, hL.count, ← hlen, Seqs.seq, List.length_map]

/-! ### Moves -/

theorem beside_updConn (c : ℕ) (g : Conn → Conn) : Beside fun s => s.updConn c g :=
  ⟨fun _ => rfl, fun _ st => by cases st <;> rfl⟩

theorem beside_setClient (i : ℕ) (pc : ClientPc) : Beside fun s => s.setClient i pc :=
  ⟨fun _ => rfl, fun _ st => by cases st <;> rfl⟩

theorem beside_abort (pc : AbortPc) : Beside fun s => { s with abort := pc } :=
  ⟨fun _ => rfl, fun _ st => by cases st <;> rfl⟩

theorem follows_mvNode (h : m.Layout s A) (hn : n ∈ A.nodes a.list) (hdata : A.data n = some (some c))
    (hab : a ≠ b) : Follows
      ((m.on fun s => s.updConn c fun k => { k with status := b }).dllistMvNode a n b)
      (some (s.move c a b)) := by
  obtain ⟨mem, hmem, hR⟩ := h.mvNode hn hdata hab fun _ => rfl
  have hbare : s.bare.updConn c (fun k => { k with status := b }) = (s.move c a b).bare := by
    cases a <;> cases b <;> rfl
  rw [dllistMvNode, PoolMem.on, hmem, Option.map_some, h.rest, hbare]
  exact .some hR

theorem follows_move (h : m.Represents s) (hc : c ∈ (s.list a).nodes) (hab : a ≠ b) :
    Follows (m.move c a b) (some (s.move c a b)) := by
  obtain ⟨A, h⟩ := h
  obtain ⟨n, hn, hdata, hname⟩ := h.exists_node hc
  rw [PoolMem.move, h.mem.node, hname, Option.bind_some]
  exact follows_mvNode h hn hdata hab

theorem follows_takeIdle (h : m.Represents s) (i : ℕ) : Follows (m.takeIdle i) (s.takeIdle i) := by
  obtain ⟨A, h⟩ := h
  have hhead : (m.mem.list Status.idle.list).head = (A.nodes Status.idle.list).head? :=
    (h.mem.list Status.idle.list).chain.forward.head?_eq
  have hseq : A.seq Status.idle.list = s.idleConns.nodes.map some := h.seq .idle
  rw [takeIdle, Pool.takeIdle, hhead]
  cases hnodes : A.nodes Status.idle.list with
  | nil =>
    rw [Seqs.seq, hnodes] at hseq
    rw [List.map_eq_nil_iff.1 hseq.symm]
    exact .none
  | cons n l =>
    rw [Seqs.seq, hnodes] at hseq
    obtain ⟨c, cs, hcs, hdata, -⟩ := List.map_eq_cons_iff.1 hseq.symm
    have hdata : A.data n = some (some c) := Option.join_eq_some_iff.1 hdata.symm
    obtain ⟨k, hk, hkc⟩ : ∃ k, m.mem.heap.get n = some k ∧ k.data = some c := by
      rwa [← h.mem.data, Option.map_eq_some_iff] at hdata
    have hn : n ∈ A.nodes Status.idle.list := by
      rw [hnodes]
      exact List.mem_cons_self
    have hne : Status.idle ≠ .busy := by decide
    rw [hcs, List.head?_cons, List.head?_cons, Option.bind_some, hk, Option.bind_some, hkc,
      Option.bind_some]
    exact (follows_mvNode h hn hdata hne).on (beside_setClient i (.got c false))

/-! ### Clients -/

theorem follows_waitLoop (h : m.Represents s) (hL : s.Lists) (i : ℕ) :
    Follows (m.waitLoop tp i) (s.waitLoop tp i) := by
  have hidle : m.count .idle = s.idleConns.count := h.count_eq hL .idle
  have hbusy : m.count .busy = s.busyConns.count := h.count_eq hL .busy
  have hnoop : m.count .noop = s.noopConns.count := h.count_eq hL .noop
  have hwait : (m.on fun s => { s with waiting := s.waiting - 1 }).Represents
      { s with waiting := s.waiting - 1 } :=
    h.on ⟨fun _ => rfl, fun _ st => by cases st <;> rfl⟩
  have hidle' : (m.on fun s => { s with waiting := s.waiting - 1 }).count .idle = s.idleConns.count :=
    hidle
  rw [waitLoop, Pool.waitLoop, hidle, hbusy, hnoop]
  dsimp only
  rw [hidle']
  split
  · exact .some (h.on (beside_setClient i .wait))
  · split
    · exact follows_takeIdle hwait i
    · exact .some (hwait.on ⟨fun _ => rfl, fun _ st => by cases st <;> rfl⟩)

theorem follows_getAnIdleConn (h : m.Represents s) (hL : s.Lists) (i : ℕ) :
    Follows (m.getAnIdleConn tp i) (s.getAnIdleConn tp i) := by
  have hidle : m.count .idle = s.idleConns.count := h.count_eq hL .idle
  have hbusy : m.count .busy = s.busyConns.count := h.count_eq hL .busy
  have hnoop : m.count .noop = s.noopConns.count := h.count_eq hL .noop
  rw [getAnIdleConn, Pool.getAnIdleConn, hidle, hbusy, hnoop]
  split
  · exact follows_takeIdle h i
  · split
    · exact .some (h.on ⟨fun _ => rfl, fun _ st => by cases st <;> rfl⟩)
    · have hwait : (m.on fun s => { s with waiting := s.waiting + 1 }).Represents
          { s with waiting := s.waiting + 1 } := h.on ⟨fun _ => rfl, fun _ st => by cases st <;> rfl⟩
      exact follows_waitLoop hwait hL i

theorem follows_connAdded (h : m.Represents s) (hL : s.Lists) (hfree : m.mem.heap.get n = none) (i : ℕ) :
    Follows (m.connAdded i n) (some (s.connAdded i)) := by
  obtain ⟨A, h⟩ := h
  have hnew : ∀ st, s.conns.length ∉ (s.list st).nodes := by
    intro st hmem
    obtain ⟨k, hk, -⟩ := Pool.place_eq_some.1 ((hL.mem st _).1 hmem)
    rw [List.getElem?_eq_none (Nat.le_refl _)] at hk
    cases hk
  obtain ⟨mem, hmem, hR⟩ := h.append (b := .busy) (t := s.connAdded i) hfree hnew fun st => by
    cases st <;> rfl
  have hlen : m.rest.conns.length = s.conns.length := by rw [h.rest]; rfl
  rw [connAdded, hlen, hmem, Option.map_some, h.rest]
  exact .some hR

/-- Where a client has a connection, it is busy. -/
theorem mem_busy (hI : s.Inv) {pc : ClientPc} (hi : s.clients[i]? = some pc) (hc : pc.conn? = some c) :
    c ∈ (s.list .busy).nodes :=
  (hI.lists.mem .busy c).2 ((hI.holders.busy_iff c).2 ⟨i, (Pool.holds_eq hi).trans hc⟩)

theorem follows_releaseConn (h : m.Represents s) (hc : c ∈ (s.list .busy).nodes) (i : ℕ) :
    Follows (m.releaseConn i c) (some (s.releaseConn i c)) := by
  have hsent : (m.on fun s => { s with totalSend := s.totalSend + 1, todaySend := s.todaySend + 1 }).Represents
      { s with totalSend := s.totalSend + 1, todaySend := s.todaySend + 1 } :=
    h.on ⟨fun _ => rfl, fun _ st => by cases st <;> rfl⟩
  have hne : Status.busy ≠ .idle := by decide
  exact (follows_move hsent hc hne).on (beside_setClient i (.bcast c))

theorem follows_retireConn (h : m.Represents s) (hc : c ∈ (s.list .busy).nodes) (i : ℕ) (ret : Bool) :
    Follows (m.retireConn i c ret) (some (s.retireConn i c ret)) := by
  have hne : Status.busy ≠ .noop := by decide
  have flagged : ∀ {m : PoolMem} {s : Pool}, m.Represents s → c ∈ (s.list .busy).nodes →
      Follows (((m.on fun s => s.updConn c fun k => { k with endFlag := true }).move c .busy .noop).map
        (PoolMem.on · fun s => s.setClient i (.signal c ret)))
        (some (((s.updConn c fun k => { k with endFlag := true }).move c .busy .noop).setClient i
          (.signal c ret))) :=
    fun h hc => (follows_move (h.on (beside_updConn c _)) hc hne).on (beside_setClient i _)
  cases ret with
  | true =>
    have hsent : (m.on fun s =>
        { s with totalSend := s.totalSend + 1, todaySend := s.todaySend + 1 }).Represents
        { s with totalSend := s.totalSend + 1, todaySend := s.todaySend + 1 } :=
      h.on ⟨fun _ => rfl, fun _ st => by cases st <;> rfl⟩
    exact flagged hsent hc
  | false => exact flagged h hc

/-- A section that leaves the lists alone. -/
theorem follows_section (h : m.Represents s) (hf : Beside f) :
    Follows ((m.rest.locked (f m.rest)).map fun rest => { m with rest := rest }) (s.locked (f s)) := by
  have hmtx : m.rest.mtx = s.mtx := by rw [h.rest]; rfl
  rw [Pool.locked, Pool.locked, hmtx]
  split
  · exact .some (h.on hf)
  · exact .none

theorem follows_clientStep (hI : s.Inv) (h : m.Represents s) (hfree : m.mem.heap.get n = none)
    {pc : ClientPc} (hi : s.clients[i]? = some pc) (ok : Bool) :
    Follows (m.clientStep tp i ok n pc) (s.clientStep tp i ok pc) := by
  have plain : ∀ {f : Pool → Pool}, Beside f → Follows (some (m.on f)) (some (f s)) :=
    fun hf => .some (h.on hf)
  cases pc with
  | call => exact (follows_getAnIdleConn h hI.lists i).locked h
  | woken => exact (follows_waitLoop h hI.lists i).locked h
  | setup =>
    cases ok with
    | true => exact follows_connAdded h hI.lists hfree i
    | false => exact plain ⟨fun _ => rfl, fun _ st => by cases st <;> rfl⟩
  | release c =>
    have hstep := follows_releaseConn h (mem_busy hI hi rfl) i
    exact hstep.locked h
  | retire c ret =>
    have hstep := follows_retireConn h (mem_busy hI hi rfl) i ret
    exact hstep.locked h
  -- the others leave the lists alone
  | wait => exact .none
  | expired =>
    exact follows_section (f := fun s => s.giveUp i) h ⟨fun _ => rfl, fun _ st => by cases st <;> rfl⟩
  | connect =>
    cases ok with
    | true => exact plain (beside_setClient i .setup)
    | false =>
      exact plain (f := fun s => s.connFailed i) ⟨fun _ => rfl, fun _ st => by cases st <;> rfl⟩
  | got c isNew =>
    exact plain (f := fun s => (s.updConn c fun k => { k with noopCount := 0 }).setClient i
      (if isNew then .mail c else .rset c)) ⟨fun _ => rfl, fun _ st => by cases st <;> rfl⟩
  | sent c =>
    exact plain (f := fun s => (s.updConn c fun k => { k with sendCount := k.sendCount + 1 }).setClient i
      (.limit c)) ⟨fun _ => rfl, fun _ st => by cases st <;> rfl⟩
  | limit c =>
    have hconns : m.rest.conns = s.conns := by rw [h.rest]; rfl
    change Follows ((m.rest.conns[c]?.map _).map _) (s.conns[c]?.map _)
    rw [hconns]
    cases s.conns[c]? with
    | none => exact .none
    | some k => exact plain (beside_setClient i _)
  | bcast c =>
    exact plain (f := fun s => s.broadcastIdle.setClient i (.signal c true))
      ⟨fun _ => rfl, fun _ st => by cases st <;> rfl⟩
  | signal c ret =>
    exact plain (f := fun s => (s.signalConn c).setClient i (.ret ret))
      ⟨fun _ => rfl, fun _ st => by cases st <;> rfl⟩
  | out | rset c | mail c | pause c | ret r => exact plain (beside_setClient i _)

/-! ### `connNOOP` -/

theorem mem_place (hI : s.Inv) {k : Conn} (hk : s.conns[c]? = some k) (hin : k.pc.inPool) :
    c ∈ (s.list k.status).nodes := (hI.lists.mem _ c).2 (Pool.place_eq hk hin)

/-- Where the thread of a connection owns it, it is in `noopConns`. -/
theorem mem_noop (hI : s.Inv) {k : Conn} (hk : s.conns[c]? = some k) (ho : k.pc.owns) :
    c ∈ (s.list .noop).nodes := by
  have hin : k.pc.inPool := by
    revert ho
    cases k.pc <;> simp [NoopPc.owns, NoopPc.inPool]
  rw [← (hI.conn c k hk).owns ho]
  exact mem_place hI hk hin

theorem follows_endConnDelete (h : m.Represents s) (hc : c ∈ (s.list .noop).nodes) :
    Follows (m.endConnDelete c) (some (s.endConnDelete c)) := by
  obtain ⟨A, h⟩ := h
  obtain ⟨mem, hmem, hR⟩ := h.delete (t := s.endConnDelete c) hc fun st => by cases st <;> rfl
  rw [endConnDelete, hmem, Option.map_some, h.rest]
  exact .some hR

theorem follows_noopTop (hI : s.Inv) (h : m.Represents s) {k : Conn} (hk : s.conns[c]? = some k)
    (hin : k.pc.inPool) : Follows (m.noopTop c k) (some (s.noopTop c k)) := by
  have hwaiting : m.rest.waiting = s.waiting := by rw [h.rest]; rfl
  have hrest : Beside fun s => if k.endFlag then s.endConnLocked c else s.setPc c .count := by
    cases k.endFlag with
    | true => exact ⟨fun _ => rfl, fun _ st => by cases st <;> rfl⟩
    | false => exact ⟨fun _ => rfl, fun _ st => by cases st <;> rfl⟩
  rw [noopTop, Pool.noopTop, hwaiting]
  split
  · exact .some (h.on ⟨fun _ => rfl, fun _ st => by cases st <;> rfl⟩)
  · by_cases hidle : k.status = .idle
    · have hne : Status.idle ≠ .noop := by decide
      have hc := mem_place hI hk hin
      rw [hidle] at hc
      rw [if_pos hidle, if_pos hidle]
      exact (follows_move h hc hne).on hrest
    · rw [if_neg hidle, if_neg hidle]
      exact .some (h.on hrest)

theorem follows_noopBack (hI : s.Inv) (h : m.Represents s) {k : Conn} (hk : s.conns[c]? = some k)
    (ho : k.pc.owns) : Follows (m.noopBack c k) (some (s.noopBack c k)) := by
  rw [noopBack, Pool.noopBack]
  split
  · exact .some (h.on ⟨fun _ => rfl, fun _ st => by cases st <;> rfl⟩)
  · have hne : Status.noop ≠ .idle := by decide
    exact (follows_move h (mem_noop hI hk ho) hne).on (f := fun s => s.setPc c .bcast)
      ⟨fun _ => rfl, fun _ st => by cases st <;> rfl⟩

theorem follows_noopStep (hI : s.Inv) (h : m.Represents s) {k : Conn} (hk : s.conns[c]? = some k) (ok : Bool) :
    Follows (m.noopStep tp c ok k) (s.noopStep tp c ok k) := by
  have plain : ∀ {f : Pool → Pool}, Beside f → Follows (some (m.on f)) (some (f s)) :=
    fun hf => .some (h.on hf)
  have setPc : ∀ pc, Beside fun s => s.setPc c pc :=
    fun _ => ⟨fun _ => rfl, fun _ st => by cases st <;> rfl⟩
  have hin := mem_noop hI hk
  have htop := follows_noopTop hI h hk
  have hback := follows_noopBack hI h hk
  unfold noopStep Pool.noopStep
  cases hpc : k.pc with
  | top | woken =>
    rw [hpc] at htop
    exact (htop rfl).locked h
  | relock =>
    rw [hpc] at hback
    exact (hback rfl).locked h
  | closeHeld =>
    rw [hpc] at hin
    have hshut := h.on (beside_updConn c fun k => { k with sockOpen := false })
    exact follows_endConnDelete hshut (hin rfl)
  | delete =>
    rw [hpc] at hin
    exact (follows_endConnDelete h (hin rfl)).locked h
  -- the others leave the lists alone
  | wait | exited => exact .none
  | count | close => exact plain (beside_updConn c _)
  | noop | sleep | destroy => exact plain (setPc _)
  | bcast =>
    exact plain (f := fun s => s.broadcastIdle.setPc c .sleep)
      ⟨fun _ => rfl, fun _ st => by cases st <;> rfl⟩
  | endSignal =>
    exact plain (f := fun s => s.signalEnd.setPc c .endBcast)
      ⟨fun _ => rfl, fun _ st => by cases st <;> rfl⟩
  | endBcast =>
    exact plain (f := fun s => s.broadcastIdle.setPc c .exited)
      ⟨fun _ => rfl, fun _ st => by cases st <;> rfl⟩

/-! ### `abortTpConns` -/

/-- The visit sets the flags of the list. -/
theorem visit_setEndFlag (cs : List ℕ) (idx : ℕ) (r : Pool) :
    (Visit.visit setEndFlag (cs.map some) idx (some r)).arg = some (Pool.setEndFlags cs r) := by
  induction cs generalizing idx r with
  | nil => rfl
  | cons c cs ih => exact ih (idx + 1) _

theorem beside_setEndFlags (cs : List ℕ) : Beside (Pool.setEndFlags cs) where
  bare s := by
    induction cs generalizing s with
    | nil => rfl
    | cons c cs ih => exact ih (s.updConn c fun k => { k with endFlag := true })
  list s := (Pool.setEndFlags_frame cs s).2.2.2

theorem follows_setEndFlags (h : m.Represents s) (st : Status) :
    Follows (m.setEndFlags st) (some (Pool.setEndFlags (s.list st).nodes s)) := by
  obtain ⟨A, hA⟩ := h
  have hlt : (A.nodes st.list).length < (m.count st).toNat + 1 := by
    rw [PoolMem.count, hA.mem.count, Int.toNat_natCast]
    exact Nat.lt_succ_self _
  have hflags := Represents.on ⟨A, hA⟩ (beside_setEndFlags (s.list st).nodes)
  rw [setEndFlags, Dllists.dllistVisit_eq hA.mem (some m.rest) hlt, Option.bind_some]
  dsimp only
  rw [hA.seq, visit_setEndFlag]
  exact .some hflags

theorem represents_endLoop (h : m.Represents s) (hL : s.Lists) : (m.endLoop).Represents s.endLoop := by
  have hnoop : m.count .noop = s.noopConns.count := h.count_eq hL .noop
  have hidle : m.count .idle = s.idleConns.count := h.count_eq hL .idle
  rw [endLoop, hnoop, hidle]
  exact h.on (beside_abort (if s.noopConns.count + s.idleConns.count > 0 then .waitEnd else .done))

theorem lists_setEndFlags (hL : s.Lists) (cs : List ℕ) : (Pool.setEndFlags cs s).Lists := by
  have hlist : ∀ st, (Pool.setEndFlags cs s).list st = s.list st := (beside_setEndFlags cs).list s
  unfold Pool.Lists at *
  simpa only [hlist, funext fun d => Pool.place_setEndFlags (s := s) (d := d) cs] using hL

/-- `if (tp->aConns->count) dllistVisit(tp->aConns, setEndFlag, NULL);` -/
theorem follows_flags (h : m.Represents s) (hL : s.Lists) (st : Status) :
    ∃ m' s', (if m.count st ≠ 0 then m.setEndFlags st else some m) = some m' ∧
      (if (s.list st).count ≠ 0 then Pool.setEndFlags (s.list st).nodes s else s) = s' ∧
      m'.Represents s' ∧ s'.Lists ∧ ∀ st, s'.list st = s.list st := by
  rw [h.count_eq hL]
  by_cases hzero : (s.list st).count ≠ 0
  · have hflags := follows_setEndFlags h st
    generalize m.setEndFlags st = o at hflags ⊢
    cases hflags with
    | some hR =>
      rw [if_pos hzero, if_pos hzero]
      exact ⟨_, _, rfl, rfl, hR, lists_setEndFlags hL _, (beside_setEndFlags _).list s⟩
  · rw [if_neg hzero, if_neg hzero]
    exact ⟨m, s, rfl, rfl, h, hL, fun _ => rfl⟩

theorem follows_abortLoop (h : m.Represents s) (hL : s.Lists) :
    Follows m.abortLoop (some s.abortLoop) := by
  have hbusy : m.count .busy = s.busyConns.count := h.count_eq hL .busy
  have hwaiting : m.rest.waiting = s.waiting := by rw [h.rest]; rfl
  rw [abortLoop, Pool.abortLoop, hbusy, hwaiting]
  split
  · exact .some (h.on (beside_abort .waitIdle))
  · obtain ⟨m₁, s₁, hm₁, hs₁, h₁, hL₁, hlist⟩ := follows_flags h hL .noop
    obtain ⟨m₂, s₂, hm₂, hs₂, h₂, hL₂, -⟩ := follows_flags h₁ hL₁ .idle
    have hnoop : (if s.noopConns.count ≠ 0 then Pool.setEndFlags s.noopConns.nodes s else s) = s₁ := hs₁
    have hidle : (if s₁.idleConns.count ≠ 0 then Pool.setEndFlags s₁.idleConns.nodes s₁ else s₁) = s₂ :=
      hs₂
    rw [hm₁, Option.bind_some, hm₂, Option.map_some, hnoop]
    dsimp only
    rw [hidle]
    exact .some (represents_endLoop h₂ hL₂)

theorem follows_abortStep (h : m.Represents s) (hL : s.Lists) : Follows m.abortStep s.abortStep := by
  have habort : m.rest.abort = s.abort := by rw [h.rest]; rfl
  have hloop : Follows (m.abortLoop.bind m.locked) (s.locked s.abortLoop) := (follows_abortLoop h hL).locked h
  have hend : Follows (m.locked m.endLoop) (s.locked s.endLoop) :=
    Follows.locked (.some (represents_endLoop h hL)) h
  unfold abortStep Pool.abortStep
  rw [habort]
  cases s.abort with
  | start | wokenIdle => exact hloop
  | wokenEnd => exact hend
  | out => exact .some (h.on (beside_abort .start))
  | waitIdle | waitEnd | done => exact .none

/-! ### Every step -/

/-- **A step** does to the lists in memory what it does to the pool: its calls of
    dllist.c go through no NULL or freed pointer, and keep the layout. -/
theorem follows_step (hI : s.Inv) (h : m.Represents s) (hfree : m.mem.heap.get n = none) (a : Action) :
    Follows (m.step tp (a, n)) (s.step tp a) := by
  have hclients : m.rest.clients = s.clients := by rw [h.rest]; rfl
  have hconns : m.rest.conns = s.conns := by rw [h.rest]; rfl
  rw [PoolMem.step, if_pos hfree]
  cases a with
  | client i ok =>
    change Follows (m.rest.clients[i]?.bind _) (s.clients[i]?.bind _)
    rw [hclients]
    cases hi : s.clients[i]? with
    | none => exact .none
    | some pc => exact follows_clientStep hI h hfree hi ok
  | noop c ok =>
    change Follows (m.rest.conns[c]?.bind _) (s.conns[c]?.bind _)
    rw [hconns]
    cases hk : s.conns[c]? with
    | none => exact .none
    | some k => exact follows_noopStep hI h hk ok
  | abort => exact follows_abortStep h hI.lists
  | timeout i | spuriousClient i =>
    simp only [Pool.step, hclients]
    split
    · exact .some (h.on (beside_setClient i _))
    · exact .none
  | spuriousNoop c =>
    simp only [Pool.step, hconns]
    cases s.conns[c]? with
    | none => exact .none
    | some k =>
      rw [Option.bind_some, Option.bind_some]
      split
      · exact .some (h.on (beside_updConn c _))
      · exact .none
  | spuriousAbort =>
    have habort : m.rest.abort = s.abort := by rw [h.rest]; rfl
    simp only [Pool.step, Pool.abortSpurious, habort]
    cases s.abort with
    | waitIdle => exact .some (h.on (beside_abort .wokenIdle))
    | waitEnd => exact .some (h.on (beside_abort .wokenEnd))
    | _ => exact .none
  | resetToday =>
    exact follows_section (f := fun s => { s with todaySend := 0 }) h
      ⟨fun _ => rfl, fun _ st => by cases st <;> rfl⟩

/-! ### Who can go on -/

theorem locked_isSome (hm : s.mtx = none) (t : Pool) : (s.locked t).isSome := by
  rw [Pool.locked, if_pos hm]
  rfl

theorem takeIdle_isSome (hL : s.Lists) (hcount : s.idleConns.count ≠ 0) (i : ℕ) :
    (s.takeIdle i).isSome := by
  have hlen : s.idleConns.count = s.idleConns.nodes.length := hL.count .idle
  rw [Pool.takeIdle, Option.isSome_map]
  cases hnodes : s.idleConns.nodes with
  | nil =>
    rw [hlen, hnodes] at hcount
    exact absurd rfl hcount
  | cons c cs => rfl

theorem waitLoop_isSome (hL : s.Lists) (w : ℤ) (i : ℕ) :
    (Pool.waitLoop { s with waiting := w } tp i).isSome := by
  unfold Pool.waitLoop
  split
  · rfl
  · dsimp only
    split
    · rename_i hcount
      exact takeIdle_isSome (s := { s with waiting := w - 1 }) hL hcount i
    · rfl

theorem getAnIdleConn_isSome (hL : s.Lists) (i : ℕ) : (s.getAnIdleConn tp i).isSome := by
  unfold Pool.getAnIdleConn
  split
  · rename_i hcount
    exact takeIdle_isSome hL hcount i
  · split
    · rfl
    · exact waitLoop_isSome hL _ i

/-- With the lock free, who is not blocked goes on. -/
theorem step_isSome (hI : s.Inv) (hm : s.mtx = none) {a : Action} (ha : s.Ready a) :
    (s.step tp a).isSome := by
  have bind : ∀ {o : Option Pool}, o.isSome → (o.bind s.locked).isSome := by
    intro o ho
    obtain ⟨t, rfl⟩ := Option.isSome_iff_exists.1 ho
    exact locked_isSome hm t
  cases a with
  | client i ok =>
    obtain ⟨pc, hi, hpc⟩ := ha
    rw [Pool.step, hi, Option.bind_some]
    cases pc with
    | wait => exact absurd rfl hpc
    | call => exact bind (getAnIdleConn_isSome hI.lists i)
    | woken => exact bind (waitLoop_isSome hI.lists s.waiting i)
    | expired | release c | retire c ret => exact locked_isSome hm _
    | limit c =>
      obtain ⟨k, hk, -⟩ := Pool.place_eq_some.1 ((hI.lists.mem .busy c).1 (mem_busy hI hi rfl))
      rw [Pool.clientStep, hk]
      rfl
    | _ => rfl
  | noop c ok =>
    obtain ⟨k, hk, hwait, hexited⟩ := ha
    rw [Pool.step, hk, Option.bind_some]
    unfold Pool.noopStep
    cases hpc : k.pc with
    | wait => exact absurd hpc hwait
    | exited => exact absurd hpc hexited
    | top | woken | relock | delete => exact locked_isSome hm _
    | _ => rfl
  | abort =>
    obtain ⟨hidle, hend, hdone⟩ := ha
    rw [Pool.step]
    unfold Pool.abortStep
    cases habort : s.abort with
    | waitIdle => exact absurd habort hidle
    | waitEnd => exact absurd habort hend
    | done => exact absurd habort hdone
    | out => rfl
    | start | wokenIdle | wokenEnd => exact locked_isSome hm _
  | _ => exact ha.elim

end

/-- **The lists of the connections in memory.**  For every transport and any number of
    clients, the runs in memory are those of the pool: whatever `calloc` returns, each
    state reached in memory is one of the pool, laid out as chains of nodes, one for each
    connection that is in a list and no others; each state of the pool is reached in
    memory; and a thread that is not blocked and finds the lock free goes on, so that no
    call of dllist.c goes through a NULL or freed pointer. -/
theorem conns_in_memory (tp : Tp) (clients : ℕ) :
    (∀ m, Runs.Reach (PoolMem.step tp) (init clients) m → ∃ s,
      Runs.Reach (Pool.step tp) (Pool.init clients) s ∧ m.Represents s ∧
        ∀ a n, m.mem.heap.get n = none → Option.Rel Represents (m.step tp (a, n)) (s.step tp a) ∧
          (s.mtx = none → s.Ready a → (m.step tp (a, n)).isSome)) ∧
    ∀ s, Runs.Reach (Pool.step tp) (Pool.init clients) s → ∃ m,
      Runs.Reach (PoolMem.step tp) (init clients) m ∧ m.Represents s := by
  refine ⟨fun m hm => ?_, fun s hs => ?_⟩
  · obtain ⟨s, hs, hR⟩ : ∃ s, Runs.Reach (Pool.step tp) (Pool.init clients) s ∧ m.Represents s := by
      refine hm.simulated ⟨_, layout_init clients⟩ fun m s ⟨a, n⟩ m' hs hR ha => ⟨a, ?_⟩
      have hfree : m.mem.heap.get n = none := by
        by_contra hne
        rw [PoolMem.step, if_neg hne] at ha
        cases ha
      have hstep : Follows (m.step tp (a, n)) (s.step tp a) :=
        follows_step (Pool.inv_of_reach hs) hR hfree a
      rw [ha] at hstep
      generalize s.step tp a = p at hstep ⊢
      cases hstep with
      | some hR' => exact ⟨_, rfl, hR'⟩
    have hI := Pool.inv_of_reach hs
    refine ⟨s, hs, hR, fun a n hfree => ?_⟩
    have hstep : Follows (m.step tp (a, n)) (s.step tp a) := follows_step hI hR hfree a
    refine ⟨hstep, fun hm ha => ?_⟩
    have hgoes : (s.step tp a).isSome := step_isSome hI hm ha
    generalize s.step tp a = p at hstep hgoes
    generalize m.step tp (a, n) = o at hstep ⊢
    cases hstep with
    | some => rfl
    | none => cases hgoes
  · obtain ⟨m, hm, -, hR⟩ : ∃ m, Runs.Reach (PoolMem.step tp) (init clients) m ∧
        s.Inv ∧ m.Represents s := by
      refine hs.simulated (R := fun s m => s.Inv ∧ Represents m s)
        ⟨Pool.inv_init clients, _, layout_init clients⟩ fun s m a s' _ ⟨hI, hR⟩ ha => ?_
      have hfree := m.mem.heap.get_fresh
      have hstep : Follows (m.step tp (a, m.mem.heap.fresh)) (s.step tp a) := follows_step hI hR hfree a
      rw [ha] at hstep
      refine ⟨(a, m.mem.heap.fresh), ?_⟩
      generalize m.step tp (a, m.mem.heap.fresh) = o at hstep ⊢
      cases hstep with
      | some hR' => exact ⟨_, rfl, Pool.inv_trans hI (Pool.trans_of_step ha), hR'⟩
    exact ⟨m, hm, hR⟩

/-- One client has brought its connection back, another has just got one. -/
theorem conns_in_memory_two : ∃ (m : PoolMem) (s : Pool), Runs.Reach (Pool.step tpTwo) (Pool.init 2) s ∧
    m.Represents s ∧ m.count .idle = 1 ∧ m.count .busy = 1 := by
  have h : ((Runs.exec (PoolMem.step tpTwo) (init 2)
      (List.replicate 4 (.client 0 true, 7) ++ List.replicate 4 (.client 1 true, 3) ++
        List.replicate 5 (.client 0 true, 0))).map fun m => (m.count .idle, m.count .busy)) =
      some (1, 1) := by decide +kernel
  obtain ⟨m, hm, hcount⟩ := Option.map_eq_some_iff.1 h
  obtain ⟨s, hs, hR, -⟩ := (conns_in_memory tpTwo 2).1 m (Runs.Reach.refl.of_exec hm)
  obtain ⟨hidle, hbusy⟩ := Prod.mk.inj hcount
  exact ⟨m, s, hs, hR, hidle, hbusy⟩

end PoolMem

end SmtpProxy
