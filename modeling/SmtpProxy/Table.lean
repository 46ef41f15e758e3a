/-
  The table of the transports and its lock `transportsMtx`: start-up, reloads
  and shutdown in the main thread (main.c, `loadTpConfig` and `freeTransports`
  in transport.c), `collectReport` in the monitor thread (report.c) and
  `resetTodaySendCounter` in the threads of the timer.

  A visit of the list knows how many nodes it has still to visit, its own node
  first (`node`); nodes are deleted at the head only.

  * `Table.step`: one step of one of the threads;
  * `LockInv`: what the table is for those who take the lock;
  * `Races`: the steps that break it; `table_iff`: it holds all the time iff
    none of them is taken.
-/
import SmtpProxy.Config
import SmtpProxy.Lib.Runs

namespace SmtpProxy

open CString

/-- A thread that visits the table under its lock. -/
inductive Reader where
  | idle  -- the monitor, in `accept`
  | lock  -- before the lock
  | locked  -- before `dllistVisit`
  | visit (left : ℕ)  -- in it, before the handler
  | gone
  deriving DecidableEq

/-- The thread has the lock. -/
def Reader.Holds : Reader → Prop
  | .locked | .visit _ => True
  | _ => False

/-- Where the main thread is. -/
inductive TablePc where
  | lock  -- in `loadTpConfig`, before the lock
  | parse (good : Bool)  -- in `ini_parse`; `good`: no handler call has failed
  | check (left : ℕ)  -- in the visit with `checkTp`
  | unlock  -- before the unlock
  | create  -- in `mainLoop`, before the `pthread_create` of the monitor
  | timer  -- before `initTodaySendResetTimer`
  | loop  -- accepting connections
  | block  -- before `blockClients` and `abortTransportsConns`
  | free (left : ℕ)  -- in `freeTransports`, visiting with `freeTp`
  | unlink  -- deleting the nodes
  | unblock  -- before `unblockClients`
  | cancel  -- before the `pthread_cancel` of the monitor
  | join
  | timerDelete  -- before `timer_delete`
  | abort  -- before `abortClients` and `abortTransportsConns`
  | out  -- behind `freeTransports`
  | exited  -- `exit(…)`
  deriving DecidableEq

/-- The main thread has the lock. -/
def TablePc.Holds : TablePc → Prop
  | .parse _ | .check _ | .unlock | .exited => True
  | _ => False

inductive Phase where
  | startup
  | reload
  | shutdown
  deriving DecidableEq

/-- The owner of `transportsMtx`. -/
inductive Owner where
  | main
  | reader (j : ℕ)
  deriving DecidableEq

/-- The list `transports`, its lock, and the threads: the main thread, and the
    readers, the monitor first. -/
structure Table where
  tps : List TpConf
  owner : Option Owner
  phase : Phase
  pc : TablePc
  armed : Bool
  readers : List Reader
  deriving DecidableEq

/-- Not destroyed by `freeTp`, and passed `checkTp`. -/
def TpConf.Good (tp : TpConf) : Prop := tp.freed = false ∧ tp.checkTp = .ok ()

namespace Table

/-- What comes next: the main thread goes on (`ok`: the file has no other error;
    a reload, not the end), the parser calls the handler, a reader goes on (`ok`:
    `accept` does not fail for good), the timer expires. -/
inductive Act where
  | main (ok : Bool)
  | item (i : IniItem)
  | reader (j : ℕ) (ok : Bool)
  | expire
  deriving DecidableEq

/-- At the start of the program. -/
def init : Table := ⟨[], none, .startup, .lock, false, []⟩

section
variable (testTp : Bool) (s : Table)

def goto (pc : TablePc) : Table := { s with pc := pc }

/-- The transport at the node of a visit that has `left + 1` nodes left. -/
def node (left : ℕ) : Option TpConf := s.tps.reverse[left]?

/-- `freeTp` at that node. -/
def freeTp (left : ℕ) : Table :=
  { s with
    tps := (s.tps.reverse.modify left fun tp => { tp with freed := true }).reverse
    pc := .free left }

/-- The next statement of the main thread. -/
def mainStep (ok : Bool) : Option Table :=
  match s.pc with
  | .lock => if s.owner = none then some { s with owner := some .main, pc := .parse true } else none
  | .parse good => some (s.goto (if good && ok then .check s.tps.length else .exited))
  | .check (left + 1) =>
    some (s.goto (match (s.node left).map TpConf.checkTp with
      | some (.error _) => .exited
      | _ => .check left))
  | .check 0 => some (s.goto (if testTp then .exited else .unlock))
  | .unlock =>
    some { s with owner := none, pc := if s.phase = .startup then .create else .unblock }
  | .create => some { s with readers := s.readers ++ [.idle], pc := .timer }
  | .timer => some { s with armed := true, pc := .loop }
  | .loop =>
    some (if ok then { s with phase := .reload, pc := .block }
      else { s with phase := .shutdown, pc := .cancel })
  | .block => some (s.goto (.free s.tps.length))
  | .free (left + 1) => some (s.freeTp left)
  | .free 0 => some (s.goto .unlink)
  | .unlink =>
    some (match s.tps with
      | [] => s.goto (if s.phase = .shutdown then .out else .lock)
      | _ :: tps => { s with tps := tps })
  | .unblock => some (s.goto .loop)
  | .cancel => some (s.goto .join)
  | .join =>
    match s.readers.head? with
    | some .idle | some .gone => some { s with readers := s.readers.set 0 .gone, pc := .timerDelete }
    | _ => none
  | .timerDelete => some { s with armed := false, pc := .abort }
  | .abort => some (s.goto (.free s.tps.length))
  | .out | .exited => none

def setReader (j : ℕ) (r : Reader) : Table := { s with readers := s.readers.set j r }

/-- The next statement of a reader. -/
def readerStep (j : ℕ) (ok : Bool) : Reader → Option Table
  | .idle => some (s.setReader j (if ok then .lock else .gone))
  | .lock =>
    if s.owner = none then some { s.setReader j .locked with owner := some (.reader j) } else none
  | .locked => some (s.setReader j (.visit s.tps.length))
  | .visit (left + 1) => some (s.setReader j (.visit left))
  | .visit 0 => some { s.setReader j (if j = 0 then .idle else .gone) with owner := none }
  | .gone => none

def step : Act → Option Table
  | .main ok => s.mainStep testTp ok
  | .item i =>
    match s.pc with
    | .parse good =>
      some { s with tps := (tpIniHandler s.tps i).2, pc := .parse (good && (tpIniHandler s.tps i).1) }
    | _ => none
  | .reader j ok =>
    if s.pc = .exited then none else s.readers[j]?.bind (s.readerStep j ok)
  | .expire =>
    if s.armed ∧ s.pc ≠ .exited then some { s with readers := s.readers ++ [.lock] } else none

end

/-! ## The lock invariant -/

section
variable (s : Table)

/-- A visit stands at a transport that is live and checked. -/
def Sees (r : Reader) : Prop := ∀ k, r = .visit (k + 1) → ∃ tp, s.node k = some tp ∧ tp.Good

/-- When nobody has the lock, all transports of the table are live and checked;
    and the readers see no others. -/
def LockInv : Prop := (s.owner = none → ∀ tp ∈ s.tps, tp.Good) ∧ ∀ r ∈ s.readers, s.Sees r

/-- The node has been deleted, or its transport freed. -/
def Dead (left : ℕ) : Prop := ∀ tp, s.node left = some tp → tp.freed = true

/-- The reader goes to the node with `left + 1` nodes left. -/
def Comes (left : ℕ) (r : Reader) : Prop :=
  r = .locked ∧ s.tps.length = left + 1 ∨ r = .visit (left + 2)

/-- A transport of the table is freed while nobody has the lock, or while a
    reader is at it; or a reader goes to a dead node, or gives the lock back
    while there are freed transports in the table. -/
def Races : Act → Prop
  | .main _ => ∃ left, s.pc = .free (left + 1) ∧ (s.owner = none ∨ .visit (left + 1) ∈ s.readers)
  | .reader j _ =>
    s.readers[j]? = some (.visit 0) ∧ (∃ tp ∈ s.tps, tp.freed = true) ∨
      ∃ r left, s.readers[j]? = some r ∧ s.Comes left r ∧ s.Dead left
  | _ => False

/-! ## What holds as long as no step races -/

/-- What the main thread has done to the table so far. -/
def Shape : TablePc → Prop
  | .parse _ => ∀ tp ∈ s.tps, tp.freed = false
  | .check left => (∀ tp ∈ s.tps, tp.freed = false) ∧
      ∀ k tp, left ≤ k → s.node k = some tp → tp.checkTp = .ok ()
  | .free left => left ≤ s.tps.length ∧
      ∀ k tp, s.node k = some tp → (k < left → tp.Good) ∧ (left ≤ k → tp.freed = true)
  | .unlink => ∀ tp ∈ s.tps, tp.freed = true
  | .exited => True
  | _ => ∀ tp ∈ s.tps, tp.Good

structure Inv : Prop where
  readers : ∀ j, s.owner = some (.reader j) ↔ ∃ r, s.readers[j]? = some r ∧ r.Holds
  main : s.owner = some .main ↔ s.pc.Holds
  shape : s.Shape s.pc
  lock : s.LockInv

end

section
variable {testTp : Bool} {s t : Table} {a : Act} {k left j : ℕ} {tp : TpConf} {r r' : Reader}

theorem node_mem (h : s.node k = some tp) : tp ∈ s.tps :=
  List.mem_reverse.1 (List.mem_of_getElem? h)

theorem mem_node (h : tp ∈ s.tps) : ∃ k, s.node k = some tp :=
  List.mem_iff_getElem?.1 (List.mem_reverse.2 h)

theorem node_lt (h : s.node k = some tp) : k < s.tps.length := by
  have hlt := (List.getElem?_eq_some_iff.1 h).1
  simpa using hlt

theorem node_freeTp : (s.freeTp left).node k =
    if left = k then (s.node k).map fun tp => { tp with freed := true } else s.node k := by
  unfold node freeTp
  rw [List.reverse_reverse, List.getElem?_modify]
  split
  · rfl
  · simp

theorem length_freeTp : (s.freeTp left).tps.length = s.tps.length := by
  simp [freeTp]

/-- Behind the main thread's back, what is not freed is checked. -/
theorem good_of_live (hI : s.Inv) (hm : s.owner ≠ some .main) (hk : s.node k = some tp)
    (hf : tp.freed = false) : tp.Good := by
  have hnot : ¬ s.pc.Holds := fun h => hm (hI.main.2 h)
  have hS := hI.shape
  cases hpc : s.pc with
  | parse good | check left | unlock | exited =>
    rw [hpc] at hnot
    exact absurd trivial hnot
  | free left =>
    rw [hpc] at hS
    obtain ⟨h₁, h₂⟩ := hS.2 k tp hk
    rcases Nat.lt_or_ge k left with hlt | hge
    · exact h₁ hlt
    · exact absurd (h₂ hge) (by simp [hf])
  | unlink =>
    rw [hpc] at hS
    exact absurd (hS tp (node_mem hk)) (by simp [hf])
  | _ =>
    rw [hpc] at hS
    exact hS tp (node_mem hk)

/-- A step of the main thread that leaves table, lock and readers as they are. -/
theorem inv_frame (hI : s.Inv) (ht : t.tps = s.tps) (ho : t.owner = s.owner)
    (hr : t.readers = s.readers) (hh : t.pc.Holds ↔ s.pc.Holds) (hs : s.Shape t.pc) : t.Inv := by
  obtain ⟨tps, owner, phase, pc, armed, readers⟩ := t
  dsimp only at ht ho hr hh hs
  subst ht ho hr
  exact ⟨hI.readers, hI.main.trans hh.symm, hs, hI.lock⟩

theorem inv_addReader (hI : s.Inv) (hr : ¬ r.Holds) :
    { s with readers := s.readers ++ [r] }.Inv where
  readers i := by
    refine (hI.readers i).trans (exists_congr fun r₁ => and_congr_left fun h₁ => ?_)
    rw [List.getElem?_append]
    split
    · rfl
    · rename_i hi
      rw [List.getElem?_eq_none (Nat.not_lt.1 hi), List.getElem?_singleton]
      split
      · refine ⟨nofun, fun h => ?_⟩
        obtain rfl := Option.some.inj h
        exact absurd h₁ hr
      · rfl
  main := hI.main
  shape := hI.shape
  lock := by
    refine ⟨hI.lock.1, fun r₁ h₁ => ?_⟩
    rcases List.mem_append.1 h₁ with h₁ | h₁
    · exact hI.lock.2 r₁ h₁
    · obtain rfl := List.mem_singleton.1 h₁
      rintro k rfl
      exact absurd trivial hr

/-- The readers that hold the lock, when one of them has gone on. -/
theorem holds_set (hr : s.readers[j]? = some r) (i : ℕ) :
    (∃ r₁, (s.readers.set j r')[i]? = some r₁ ∧ r₁.Holds) ↔
      if i = j then r'.Holds else ∃ r₁, s.readers[i]? = some r₁ ∧ r₁.Holds := by
  have hlt := (List.getElem?_eq_some_iff.1 hr).1
  split
  · rename_i hij
    subst hij
    rw [List.getElem?_set_self hlt]
    simp
  · rename_i hij
    rw [List.getElem?_set_ne (Ne.symm hij)]

theorem sees_set {l : List Reader} (hl : ∀ r₁ ∈ l, s.Sees r₁) (hs : s.Sees r') :
    ∀ r₁ ∈ l.set j r', s.Sees r₁ := by
  intro r₁ h₁
  rcases List.mem_or_eq_of_mem_set h₁ with h₁ | rfl
  · exact hl r₁ h₁
  · exact hs

/-- A reader goes on, and keeps or keeps off the lock. -/
theorem inv_setReader (hI : s.Inv) (hr : s.readers[j]? = some r) (hh : r'.Holds ↔ r.Holds)
    (hs : s.Sees r') : (s.setReader j r').Inv where
  readers i := by
    refine (hI.readers i).trans (Iff.trans ?_ (holds_set hr i).symm)
    split
    · rename_i hij
      subst hij
      rw [hr, hh]
      simp
    · rfl
  main := hI.main
  shape := hI.shape
  lock := ⟨hI.lock.1, sees_set hI.lock.2 hs⟩

/-- A reader takes the lock. -/
theorem inv_lock (hI : s.Inv) (hr : s.readers[j]? = some .lock) (ho : s.owner = none) :
    { s.setReader j .locked with owner := some (.reader j) }.Inv where
  readers i := by
    refine Iff.trans ?_ (holds_set hr i).symm
    split
    · rename_i hij
      simp [hij, Reader.Holds]
    · rename_i hij
      rw [← hI.readers i, ho]
      simp [Ne.symm hij]
  main := by
    refine Iff.trans ?_ hI.main
    simp [ho]
  shape := hI.shape
  lock := ⟨nofun, sees_set hI.lock.2 nofun⟩

/-- A reader gives the lock back. -/
theorem inv_unlock (hI : s.Inv) (hr : s.readers[j]? = some r) (hh : r.Holds) (hh' : ¬ r'.Holds)
    (hgood : ∀ tp ∈ s.tps, tp.Good) (hs : s.Sees r') :
    { s.setReader j r' with owner := none }.Inv := by
  have ho : s.owner = some (.reader j) := (hI.readers j).2 ⟨r, hr, hh⟩
  refine ⟨fun i => Iff.trans ?_ (holds_set hr i).symm, ?_, hI.shape, fun _ => hgood,
    sees_set hI.lock.2 hs⟩
  · split
    · simp [hh']
    · rename_i hij
      rw [← hI.readers i, ho]
      simp [Ne.symm hij]
  · refine Iff.trans ?_ hI.main
    simp [ho]

/-- A visit comes to the next node, or to the end. -/
theorem sees_next (hI : s.Inv) (hr : s.readers[j]? = some r) (hh : r.Holds)
    (hd : ∀ k, left = k + 1 → ¬ s.Dead k) : s.Sees (.visit left) := by
  intro k hk
  obtain rfl := Reader.visit.inj hk
  have ho : s.owner = some (.reader j) := (hI.readers j).2 ⟨r, hr, hh⟩
  obtain ⟨tp, htp⟩ := Classical.not_forall.1 (hd k rfl)
  obtain ⟨hk, hf⟩ := Classical.not_imp.1 htp
  exact ⟨tp, hk, good_of_live hI (by simp [ho]) hk (by simpa using hf)⟩

theorem inv_reader {ok : Bool} (hI : s.Inv) (hR : ¬ s.Races (.reader j ok))
    (hr : s.readers[j]? = some r) (h : s.readerStep j ok r = some t) : t.Inv := by
  cases r with
  | idle =>
    obtain rfl := Option.some.inj h
    refine inv_setReader hI hr ?_ fun k h => ?_
    · cases ok <;> exact Iff.rfl
    · cases ok <;> cases h
  | lock =>
    simp only [readerStep] at h
    split at h
    · rename_i ho
      obtain rfl := Option.some.inj h
      exact inv_lock hI hr ho
    · cases h
  | locked =>
    obtain rfl := Option.some.inj h
    refine inv_setReader hI hr Iff.rfl (sees_next hI hr trivial fun k hk hd => ?_)
    exact hR (Or.inr ⟨_, k, hr, Or.inl ⟨rfl, hk⟩, hd⟩)
  | visit left =>
    cases left with
    | succ left =>
      obtain rfl := Option.some.inj h
      refine inv_setReader hI hr Iff.rfl (sees_next hI hr trivial fun k hk hd => ?_)
      subst hk
      exact hR (Or.inr ⟨_, k, hr, Or.inr rfl, hd⟩)
    | zero =>
      obtain rfl := Option.some.inj h
      have ho : s.owner = some (.reader j) := (hI.readers j).2 ⟨_, hr, trivial⟩
      refine inv_unlock hI hr trivial ?_ (fun tp htp => ?_) fun k h => ?_
      · split <;> exact id
      · obtain ⟨k, hk⟩ := mem_node htp
        refine good_of_live hI (by simp [ho]) hk ?_
        by_contra hf
        exact hR (Or.inl ⟨hr, tp, htp, by simpa using hf⟩)
      · split at h <;> cases h
  | gone => cases h

/-- The visit with `checkTp` goes on when the transport passes. -/
theorem shape_check (hS : s.Shape (.check (left + 1)))
    (hc : ∀ e, (s.node left).map TpConf.checkTp ≠ some (.error e)) : s.Shape (.check left) := by
  refine ⟨hS.1, fun k tp hk hnode => ?_⟩
  rcases Nat.eq_or_lt_of_le hk with rfl | hlt
  · cases hr : tp.checkTp with
    | ok u => rfl
    | error e => exact absurd (by rw [hnode, Option.map_some, hr]) (hc e)
  · exact hS.2 k tp hlt hnode

/-- The visit with `freeTp` goes on. -/
theorem shape_free (hS : s.Shape (.free (left + 1))) : (s.freeTp left).Shape (.free left) := by
  refine ⟨?_, fun k tp hk => ?_⟩
  · rw [length_freeTp]
    exact Nat.le_of_succ_le hS.1
  rw [node_freeTp] at hk
  split at hk
  · rename_i hkl
    subst hkl
    obtain ⟨tp₁, -, rfl⟩ := Option.map_eq_some_iff.1 hk
    exact ⟨fun h => absurd h (Nat.lt_irrefl _), fun _ => rfl⟩
  · rename_i hkl
    obtain ⟨h₁, h₂⟩ := hS.2 k tp hk
    exact ⟨fun h => h₁ (Nat.lt_succ_of_lt h), fun h => h₂ (by omega)⟩

/-- Freeing a transport at which no reader is. -/
theorem inv_free (hI : s.Inv) (hpc : s.pc = .free (left + 1)) (ho : s.owner ≠ none)
    (hv : .visit (left + 1) ∉ s.readers) : (s.freeTp left).Inv := by
  have hS := hI.shape
  rw [hpc] at hS
  refine ⟨hI.readers, ?_, shape_free hS, fun h => absurd h ho, fun r hr k hk => ?_⟩
  · refine hI.main.trans ?_
    rw [hpc]
    rfl
  · obtain ⟨tp, hnode, hgood⟩ := hI.lock.2 r hr k hk
    refine ⟨tp, ?_, hgood⟩
    rw [node_freeTp, if_neg, hnode]
    rintro rfl
    exact hv (hk ▸ hr)

/-- Deleting a node. -/
theorem inv_unlink {tps : List TpConf} (hI : s.Inv) (hpc : s.pc = .unlink) (hl : s.tps = tp :: tps) :
    { s with tps := tps }.Inv := by
  have hS := hI.shape
  rw [hpc] at hS
  have hsub : ∀ tp ∈ tps, tp ∈ s.tps := fun tp h => hl ▸ List.mem_cons_of_mem _ h
  refine ⟨hI.readers, hI.main, ?_, fun ho tp h => hI.lock.1 ho tp (hsub tp h), fun r hr k hk => ?_⟩
  · rw [hpc]
    exact fun tp h => hS tp (hsub tp h)
  · -- at a node that is left there are only freed transports
    obtain ⟨tp, hnode, hgood⟩ := hI.lock.2 r hr k hk
    exact absurd (hS tp (node_mem hnode)) (by simp [hgood.1])

/-- The main thread takes the lock. -/
theorem inv_mainLock (hI : s.Inv) (hpc : s.pc = .lock) (ho : s.owner = none) :
    { s with owner := some .main, pc := .parse true }.Inv := by
  have hS := hI.shape
  rw [hpc] at hS
  refine ⟨fun j => ?_, ⟨fun _ => trivial, fun _ => rfl⟩, fun tp h => (hS tp h).1, nofun, hI.lock.2⟩
  refine Iff.trans ?_ (hI.readers j)
  simp [ho]

/-- The main thread gives the lock back, in `loadTpConfig`. -/
theorem inv_mainUnlock {pc : TablePc} (hI : s.Inv) (hpc : s.pc = .unlock)
    (hp : pc = .create ∨ pc = .unblock) : { s with owner := none, pc := pc }.Inv := by
  have hS := hI.shape
  rw [hpc] at hS
  have ho : s.owner = some .main := hI.main.2 (hpc ▸ trivial)
  refine ⟨fun j => ?_, ⟨nofun, fun h => ?_⟩, ?_, fun _ => hS, hI.lock.2⟩
  · refine Iff.trans ?_ (hI.readers j)
    simp [ho]
  · rcases hp with rfl | rfl <;> exact h.elim
  · rcases hp with rfl | rfl <;> exact hS

/-- The main thread waits for a reader to end that does not hold the lock. -/
theorem inv_join {r : Reader} (hI : s.Inv) (hpc : s.pc = .join) (hr : s.readers.head? = some r)
    (hh : ¬ r.Holds) : { s with readers := s.readers.set 0 .gone, pc := .timerDelete }.Inv := by
  have hS := hI.shape
  rw [hpc] at hS
  rw [List.head?_eq_getElem?] at hr
  have hset : (s.setReader 0 .gone).Inv := inv_setReader hI hr (iff_of_false id hh) nofun
  exact inv_frame hset rfl rfl rfl (by dsimp only [setReader]; rw [hpc]; exact Iff.rfl) hS

theorem inv_main {ok : Bool} (hI : s.Inv) (hR : ¬ s.Races (.main ok))
    (h : s.mainStep testTp ok = some t) : t.Inv := by
  have hS := hI.shape
  unfold mainStep at h
  cases hpc : s.pc with
  | lock =>
    simp only [hpc] at h
    split at h
    · rename_i ho
      obtain rfl := Option.some.inj h
      exact inv_mainLock hI hpc ho
    · cases h
  | parse good =>
    simp only [hpc] at h
    obtain rfl := Option.some.inj h
    rw [hpc] at hS
    split
    · refine inv_frame hI rfl rfl rfl (by rw [hpc]; exact Iff.rfl) ⟨hS, fun k tp hk hnode => ?_⟩
      exact absurd (node_lt hnode) (Nat.not_lt.2 hk)
    · exact inv_frame hI rfl rfl rfl (by rw [hpc]; exact Iff.rfl) trivial
  | check left =>
    rw [hpc] at hS
    cases left with
    | zero =>
      simp only [hpc] at h
      obtain rfl := Option.some.inj h
      refine inv_frame hI rfl rfl rfl ?_ ?_
      · rw [hpc]
        cases testTp <;> exact Iff.rfl
      · cases testTp with
        | true => trivial
        | false =>
          intro tp htp
          obtain ⟨k, hk⟩ := mem_node htp
          exact ⟨hS.1 tp htp, hS.2 k tp (Nat.zero_le k) hk⟩
    | succ left =>
      simp only [hpc] at h
      obtain rfl := Option.some.inj h
      split
      · exact inv_frame hI rfl rfl rfl (by rw [hpc]; exact Iff.rfl) trivial
      · rename_i hc
        exact inv_frame hI rfl rfl rfl (by rw [hpc]; exact Iff.rfl) (shape_check hS hc)
  | unlock =>
    simp only [hpc] at h
    obtain rfl := Option.some.inj h
    refine inv_mainUnlock hI hpc ?_
    split
    · exact Or.inl rfl
    · exact Or.inr rfl
  | create =>
    simp only [hpc] at h
    obtain rfl := Option.some.inj h
    rw [hpc] at hS
    exact inv_frame (inv_addReader hI id) rfl rfl rfl (by rw [hpc]; exact Iff.rfl) hS
  | block | abort =>
    simp only [hpc] at h
    obtain rfl := Option.some.inj h
    rw [hpc] at hS
    refine inv_frame hI rfl rfl rfl (by rw [hpc]; exact Iff.rfl) ⟨Nat.le_refl _, fun k tp hnode => ?_⟩
    exact ⟨fun _ => hS tp (node_mem hnode), fun hk => absurd (node_lt hnode) (Nat.not_lt.2 hk)⟩
  | free left =>
    cases left with
    | zero =>
      simp only [hpc] at h
      obtain rfl := Option.some.inj h
      rw [hpc] at hS
      refine inv_frame hI rfl rfl rfl (by rw [hpc]; exact Iff.rfl) fun tp htp => ?_
      obtain ⟨k, hk⟩ := mem_node htp
      exact (hS.2 k tp hk).2 (Nat.zero_le k)
    | succ left =>
      simp only [hpc] at h
      obtain rfl := Option.some.inj h
      exact inv_free hI hpc (fun ho => hR ⟨left, hpc, Or.inl ho⟩) fun hv => hR ⟨left, hpc, Or.inr hv⟩
  | unlink =>
    simp only [hpc] at h
    obtain rfl := Option.some.inj h
    cases hl : s.tps with
    | nil =>
      have hnil : ∀ tp ∈ s.tps, tp.Good := fun tp htp => by simp [hl] at htp
      refine inv_frame hI rfl rfl rfl ?_ ?_
      · rw [hpc]
        dsimp only [goto]
        split <;> exact Iff.rfl
      · dsimp only [goto]
        split <;> exact hnil
    | cons tp tps => simpa only [hpc] using inv_unlink hI hpc hl
  | loop =>
    simp only [hpc] at h
    obtain rfl := Option.some.inj h
    rw [hpc] at hS
    cases ok <;> exact inv_frame hI rfl rfl rfl (by rw [hpc]; exact Iff.rfl) hS
  | join =>
    simp only [hpc] at h
    split at h
    · rename_i hr
      obtain rfl := Option.some.inj h
      exact inv_join hI hpc hr id
    · rename_i hr
      obtain rfl := Option.some.inj h
      exact inv_join hI hpc hr id
    · cases h
  | timer | unblock | cancel | timerDelete =>
    simp only [hpc] at h
    obtain rfl := Option.some.inj h
    rw [hpc] at hS
    exact inv_frame hI rfl rfl rfl (by rw [hpc]; exact Iff.rfl) hS
  | out | exited => simp [hpc] at h

/-- The handler has been called: nobody else has the lock. -/
theorem inv_item {tps : List TpConf} {good good' : Bool} (hI : s.Inv) (hpc : s.pc = .parse good)
    (hl : ∀ tp ∈ tps, tp.freed = false) : { s with tps := tps, pc := .parse good' }.Inv := by
  have ho : s.owner = some .main := hI.main.2 (hpc ▸ trivial)
  refine ⟨hI.readers, ⟨fun _ => trivial, fun _ => ho⟩, hl, fun h => ?_, fun r hr k hk => ?_⟩
  · exact absurd (ho.symm.trans h) nofun
  · obtain ⟨j, hj⟩ := List.mem_iff_getElem?.1 hr
    have hj := (hI.readers j).2 ⟨r, hj, by rw [hk]; trivial⟩
    exact absurd (ho.symm.trans hj) nofun

theorem inv_step (hI : s.Inv) (hR : ¬ s.Races a) (h : s.step testTp a = some t) : t.Inv := by
  cases a with
  | main ok => exact inv_main hI hR h
  | item i =>
    simp only [step] at h
    split at h
    · rename_i good hpc
      have hS := hI.shape
      rw [hpc] at hS
      rw [← Option.some.inj h]
      exact inv_item hI hpc (tpIniHandler_live i hS)
    · cases h
  | reader j ok =>
    simp only [step] at h
    split at h
    · cases h
    · obtain ⟨r, hr, h⟩ := Option.bind_eq_some_iff.1 h
      exact inv_reader hI hR hr h
  | expire =>
    simp only [step] at h
    split at h
    · obtain rfl := Option.some.inj h
      exact inv_addReader hI id
    · cases h

theorem inv_init : init.Inv where
  readers j := by simp [init]
  main := by simp [init, TablePc.Holds]
  shape := fun tp h => absurd h List.not_mem_nil
  lock := ⟨fun _ tp h => absurd h List.not_mem_nil, fun r h => absurd h List.not_mem_nil⟩

/-- A freed transport under the eyes of a reader. -/
theorem not_sees_of_dead (hd : s.Dead k) (hr : .visit (k + 1) ∈ s.readers) : ¬ s.LockInv := by
  intro hL
  obtain ⟨tp, hnode, hgood⟩ := hL.2 _ hr k rfl
  exact absurd (hd tp hnode) (by simp [hgood.1])

theorem dead_freeTp : (s.freeTp left).Dead left := by
  intro tp h
  rw [node_freeTp, if_pos rfl] at h
  obtain ⟨tp₁, -, rfl⟩ := Option.map_eq_some_iff.1 h
  rfl

/-- **A step that races breaks the invariant.** -/
theorem broken_of_races (hI : s.Inv) (hR : s.Races a) (h : s.step testTp a = some t) :
    ¬ t.LockInv := by
  cases a with
  | main ok =>
    obtain ⟨left, hpc, hR⟩ := hR
    simp only [step, mainStep, hpc] at h
    obtain rfl := Option.some.inj h
    rcases hR with ho | hv
    · have hS := hI.shape
      rw [hpc] at hS
      have hlt : left < s.tps.reverse.length := by
        rw [List.length_reverse]
        exact hS.1
      have hnode : s.node left = some s.tps.reverse[left] := List.getElem?_eq_getElem hlt
      intro hL
      have hmem : { s.tps.reverse[left] with freed := true } ∈ (s.freeTp left).tps := by
        refine node_mem (k := left) ?_
        rw [node_freeTp, if_pos rfl, hnode]
        rfl
      exact absurd (hL.1 ho _ hmem).1 nofun
    · exact not_sees_of_dead dead_freeTp hv
  | reader j ok =>
    simp only [step] at h
    split at h
    · cases h
    · obtain ⟨r, hr, h⟩ := Option.bind_eq_some_iff.1 h
      have hlt := (List.getElem?_eq_some_iff.1 hr).1
      rcases hR with ⟨hr', tp, htp, hf⟩ | ⟨r', left, hr', hc, hd⟩
      · obtain rfl := Option.some.inj (hr.symm.trans hr')
        obtain rfl := Option.some.inj h
        intro hL
        exact absurd (hL.1 rfl tp htp).1 (by simp [hf])
      · obtain rfl := Option.some.inj (hr.symm.trans hr')
        have hmem : .visit (left + 1) ∈ s.readers.set j (.visit (left + 1)) :=
          List.mem_set hlt _
        rcases hc with ⟨rfl, hlen⟩ | rfl
        · obtain rfl := Option.some.inj h
          refine not_sees_of_dead (k := left) hd ?_
          dsimp only [setReader]
          rw [hlen]
          exact hmem
        · obtain rfl := Option.some.inj h
          exact not_sees_of_dead (k := left) hd hmem
  | _ => exact hR.elim

/-- **The lock invariant** holds in all states of a run iff no step of it races. -/
theorem table_iff {p : List (Table × Act)} (h : Runs.Path (step testTp) init p s) :
    (∀ t ∈ Runs.visited p s, t.LockInv) ↔ ∀ x ∈ p, ¬ Races x.1 x.2 := by
  refine h.visited_iff (J := Inv) (C := fun s a => ¬ s.Races a) inv_init (fun _ _ hI => hI.lock) ?_ ?_
  · intro s a t _ hI hR hst
    exact inv_step hI hR hst
  · intro s a t _ hI hR hst
    exact broken_of_races hI (Classical.not_not.1 hR) hst

end

/-! ## Runs with one transport -/

/-- The items of a section. -/
def oneSection : List IniItem :=
  [("host", "mx"), ("port", "25"), ("ssl", ""), ("auth", "LOGIN"), ("username", "u"),
    ("password", "p"), ("maxConn", "1")].map fun i => ⟨bytes "a", bytes i.1, bytes i.2⟩

/-- The start-up, with the monitor and the timer. -/
def startUp : List Act :=
  .main true :: oneSection.map .item ++ List.replicate 6 (.main true)

/-- The table, when it has been loaded. -/
def tpOne : TpConf :=
  ⟨bytes "a", some (bytes "mx"), some (bytes "25"), some [], some (bytes "LOGIN"), some (bytes "u"),
    some (bytes "p"), 1, 0, 0, 0, 0, false⟩

/-- The monitor reports, and meanwhile the timer expires: its thread locks the table
    and visits it after the monitor. -/
def twoReaders : List Act :=
  startUp ++ List.replicate 3 (.reader 0 true) ++ .expire ::
    List.replicate 2 (.reader 0 true) ++ List.replicate 4 (.reader 1 true)

/-- The main thread does not free, and the readers find that table, and are not past
    its only node. -/
def undisturbed : Table × Act → Bool
  | ⟨s, .main _⟩ =>
    match s.pc with
    | .free _ => false
    | _ => true
  | ⟨s, .reader _ _⟩ =>
    decide (s.tps = [tpOne]) && s.readers.all fun
      | .visit (_ + 2) => false
      | _ => true
  | _ => true

theorem not_races_of_undisturbed {s : Table} {a : Act} (h : undisturbed ⟨s, a⟩ = true) : ¬ s.Races a := by
  intro hR
  cases a with
  | main ok =>
    obtain ⟨left, hpc, -⟩ := hR
    rw [undisturbed, hpc] at h
    cases h
  | item i => exact hR
  | expire => exact hR
  | reader j ok =>
    simp only [undisturbed, Bool.and_eq_true, decide_eq_true_eq, List.all_eq_true] at h
    obtain ⟨htps, hvisits⟩ := h
    rcases hR with ⟨-, tp, htp, hf⟩ | ⟨r, left, hr, hcomes, hdead⟩
    · rw [htps] at htp
      obtain rfl := List.mem_singleton.1 htp
      cases hf
    · rcases hcomes with ⟨-, hlen⟩ | rfl
      · rw [htps] at hlen
        obtain rfl : left = 0 := by simpa using hlen.symm
        cases hdead tpOne (by rw [node, htps]; rfl)
      · cases hvisits _ (List.mem_of_getElem? hr)

/-- Both see a live transport. -/
theorem table_iff_readers : ∃ p s, Runs.Path (step false) init p s ∧ p.map Prod.snd = twoReaders ∧
    s.tps = [tpOne] ∧ s.readers = [.idle, .gone] ∧ ∀ t ∈ Runs.visited p s, t.LockInv := by
  have h : Runs.exec (step false) init twoReaders =
      some ⟨[tpOne], none, .startup, .loop, true, [.idle, .gone]⟩ := rfl
  have hcalm : ∀ x ∈ Runs.trace (step false) init twoReaders, undisturbed x = true := by decide +kernel
  refine ⟨_, _, Runs.Path.trace h, by decide +kernel, rfl, rfl, (table_iff (Runs.Path.trace h)).2 ?_⟩
  exact fun x hx => not_races_of_undisturbed (hcalm x hx)

/-- **A reload frees a transport** while nobody has the lock, and it is still in
    the table; and the monitor, which comes for it, goes to it. -/
theorem table_freed : ∃ s t, Runs.Path (step false) init (Runs.trace (step false) init
      (startUp ++ [.main true, .main true, .main true])) s ∧
    s.owner = none ∧ s.tps = [{ tpOne with freed := true }] ∧ ¬ s.LockInv ∧
    Runs.exec (step false) s [.reader 0 true, .reader 0 true, .reader 0 true] = some t ∧
    .visit 1 ∈ t.readers ∧ t.node 0 = some { tpOne with freed := true } := by
  have h : Runs.exec (step false) init (startUp ++ [.main true, .main true, .main true]) =
      some ⟨[{ tpOne with freed := true }], none, .reload, .free 0, true, [.idle]⟩ := rfl
  refine ⟨_, _, Runs.Path.trace h, rfl, rfl, fun hL => ?_, rfl, List.mem_singleton_self _, rfl⟩
  exact absurd (hL.1 rfl _ (List.mem_singleton_self _)).1 nofun

end Table

end SmtpProxy
