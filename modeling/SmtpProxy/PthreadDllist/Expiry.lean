/-
  The appends that are turned away because their wait has timed out, in the list
  of the clients, and with those of the pool (`Pool.Late`).

  `pthread_dllistAppend` returns 0 when its timed wait returns ETIMEDOUT, and
  does not look at `count` again; before, it has to get the lock.

  * `Spent`: the list is full for whoever has timed out; `Late`: the steps that
    break it;
  * `spent_iff`: it holds all the time iff no step is late;
  * `turned_away_full`: the same for the pool and the list together.
-/
import SmtpProxy.Pool.Expiry
import SmtpProxy.PthreadDllist.Invariant

namespace SmtpProxy

namespace PthreadDllist

/-- The wait of the thread `i` has timed out, and it has not got the lock yet. -/
def Expired (s : PthreadDllist) (i : ℕ) : Prop := ∃ data, s.threads[i]? = some (.expired data)

/-- Whoever has timed out finds the list full. -/
def Spent (maxNodes : ℕ) (s : PthreadDllist) : Prop := ∀ i, s.Expired i → s.count = maxNodes

/-- Without a bound nobody waits. -/
def Bounded (maxNodes : ℕ) (s : PthreadDllist) : Prop := ∀ (i data : ℕ),
  s.threads[i]? = some (.wait data) ∨ s.threads[i]? = some (.expired data) → maxNodes ≠ 0

/-- The step unlinks a node. -/
def Frees (s : PthreadDllist) (a : DllistAct) : Prop :=
  ∃ i ok node, a = .go i ok ∧ s.threads[i]? = some (.unlink node)

/-- A wait times out beside a list that is not full, or a node is unlinked while
    an append has timed out and not got the lock yet. -/
def Late (maxNodes : ℕ) (s : PthreadDllist) (a : DllistAct) : Prop :=
  (∃ i, a = .timeout i ∧ s.count ≠ maxNodes) ∨ s.Frees a ∧ ∃ i, s.Expired i

/-- The step is the return of an append that has timed out. -/
def GivesUp (s : PthreadDllist) (a : DllistAct) : Prop := ∃ i ok, a = .go i ok ∧ s.Expired i

section
variable {maxNodes : ℕ} {s t : PthreadDllist} {a : DllistAct}

/-! ## Places in an append -/

/-- **Who has timed out** has just done so, or had before; **who waits** has found the list
    full, or was waiting before. -/
theorem waits_of_step {i data : ℕ} {pc : DllistPc} (hpc : pc = .wait data ∨ pc = .expired data)
    (h : step maxNodes s a = some t) (hi : t.threads[i]? = some pc) :
    s.threads[i]? = some pc ∨ pc = .wait data ∧ maxNodes ≠ 0 ∧ s.count = maxNodes ∨
      pc = .expired data ∧ a = .timeout i ∧ s.threads[i]? = some (.wait data) := by
  rcases moved_of_step h i with ⟨hsame, -⟩ | ⟨pc₀, pc₁, hi₀, hi₁, hm⟩
  · exact Or.inl (hsame ▸ hi)
  · obtain rfl : pc₁ = pc := Option.some.inj (hi₁.symm.trans hi)
    cases hm with
    | go ht hent =>
      rcases hent.1 with hnone | ⟨x, rfl, -, -, hfull⟩
      · rcases hpc with rfl | rfl <;> cases hnone
      · rcases hpc with hx | hx
        · exact Or.inr (Or.inl ⟨hx, hfull⟩)
        · cases hx
    | timeout =>
      rcases hpc with hx | hx
      · cases hx
      · cases hx
        exact Or.inr (Or.inr ⟨rfl, rfl, hi₀⟩)
    | _ => rcases hpc with hx | hx <;> cases hx

theorem bounded_of_step (hB : s.Bounded maxNodes) (h : step maxNodes s a = some t) :
    t.Bounded maxNodes := by
  intro i data hi
  rcases hi with hi | hi
  · rcases waits_of_step (Or.inl rfl) h hi with hs | ⟨-, hfull, -⟩ | ⟨he, -⟩
    · exact hB i data (Or.inl hs)
    · exact hfull
    · cases he
  · rcases waits_of_step (Or.inr rfl) h hi with hs | ⟨he, -⟩ | ⟨-, -, hs⟩
    · exact hB i data (Or.inr hs)
    · cases he
    · exact hB i data (Or.inl hs)

/-- What a step makes of `count`. -/
theorem count_of_step (h : step maxNodes s a = some t) :
    t.count = s.count ∨ (maxNodes = 0 ∨ s.count ≠ maxNodes) ∧ t.count = s.count + 1 ∨
      s.Frees a ∧ t.count = s.count - 1 := by
  have ht := trans_of_step h
  generalize hev : event s a t = e at ht
  cases ht with
  | @link i x pc u hi hpc hd hm hroom hu => exact Or.inr (Or.inl ⟨hroom, (linkNode_frame hu).2.2⟩)
  | @unlink i n pc' u hi hm hu hpc' =>
    refine Or.inr (Or.inr ⟨?_, (unlinkNode_frame hu).2⟩)
    obtain ⟨j, ok, pc, rfl, hj, hcase⟩ := event_cases hev
    rcases hcase with ⟨x, -, he | ⟨he, -⟩⟩ | ⟨m, rfl, -⟩ | ⟨idx, m, -, he⟩
    · cases he
    · cases he
    · exact ⟨j, ok, m, rfl, hj⟩
    · cases he
  | _ => exact Or.inl rfl

theorem count_of_frees (hF : s.Frees a) (h : step maxNodes s a = some t) :
    t.count = s.count - 1 := by
  obtain ⟨i, ok, n, rfl, hi⟩ := hF
  rw [step, hi] at h
  simp only [Option.bind_some, goStep] at h
  split at h
  · obtain ⟨u, hu, rfl⟩ := Option.map_eq_some_iff.1 h
    exact (unlinkNode_frame hu).2
  · cases h

/-! ## Appends that have timed out -/

/-- **A step that is not late keeps the list full for those who have timed out.** -/
theorem spent_of_step (hB : s.Bounded maxNodes) (hS : s.Spent maxNodes) (hL : ¬ s.Late maxNodes a)
    (h : step maxNodes s a = some t) : t.Spent maxNodes := by
  rintro i ⟨data, hi⟩
  rcases waits_of_step (Or.inr rfl) h hi with hs | ⟨he, -⟩ | ⟨-, rfl, hs⟩
  · have hfull : s.count = maxNodes := hS i ⟨data, hs⟩
    rcases count_of_step h with hc | ⟨h0 | hne, -⟩ | ⟨hF, -⟩
    · rw [hc, hfull]
    · exact absurd h0 (hB i data (Or.inr hs))
    · exact absurd hfull hne
    · exact absurd (Or.inr ⟨hF, i, data, hs⟩) hL
  · cases he
  · have hfull : s.count = maxNodes := by
      by_contra hne
      exact hL (Or.inl ⟨i, rfl, hne⟩)
    simp only [step, hs] at h
    obtain rfl := Option.some.inj h
    exact hfull

/-- A late step leaves an append that has timed out beside a list that is not full. -/
theorem not_spent_of_late (hS : s.Spent maxNodes) (hL : s.Late maxNodes a)
    (h : step maxNodes s a = some t) : ¬ t.Spent maxNodes := by
  rcases hL with ⟨i, rfl, hne⟩ | ⟨hF, i, data, hi⟩
  · simp only [step] at h
    split at h
    · rename_i x hi
      obtain rfl := Option.some.inj h
      exact fun hT => hne (hT i ⟨x, get_goto_self hi⟩)
    · cases h
  · have hc := count_of_frees hF h
    have hfull : s.count = maxNodes := hS i ⟨data, hi⟩
    have hexp : t.Expired i := by
      obtain ⟨j, ok, n, rfl, hj⟩ := hF
      obtain ⟨pc, hpc, h⟩ := Option.bind_eq_some_iff.1 h
      obtain ⟨u, pc', rfl, hu, -⟩ := moved_of_go h
      have hij : i ≠ j := by
        rintro rfl
        cases hi.symm.trans hj
      exact ⟨data, by rw [get_goto, if_neg hij, hu, hi]⟩
    intro hT
    have hfull' : t.count = maxNodes := hT i hexp
    omega

/-- **Appends are turned away for want of room** in a run without late steps, and those are
    the runs in which nobody who has timed out is ever beside a list that is not full. -/
theorem spent_iff {n : ℕ} {p : List (PthreadDllist × DllistAct)}
    (h : Runs.Path (step maxNodes) (init n) p s) :
    (∀ t ∈ Runs.visited p s, t.Spent maxNodes) ↔ ∀ x ∈ p, ¬ x.1.Late maxNodes x.2 := by
  have hinit : ∀ {i : ℕ} {pc : DllistPc}, (init n).threads[i]? = some pc → pc = .out := fun hi =>
    List.eq_of_mem_replicate (List.mem_of_getElem? hi)
  refine h.visited_iff (J := fun s => s.Spent maxNodes) (G := fun s => s.Spent maxNodes)
    (C := fun s a => ¬ s.Late maxNodes a) ?_ (fun _ _ hS => hS) ?_ ?_
  · rintro i ⟨data, hi⟩
    cases hinit hi
  · intro s a t hr hS hL ha
    have hB : s.Bounded maxNodes := by
      refine hr.inv (I := fun s => s.Bounded maxNodes) (fun i data hi => ?_)
        fun _ _ _ hB ha => bounded_of_step hB ha
      rcases hi with hi | hi <;> cases hinit hi
    exact spent_of_step hB hS hL ha
  · intro s a t _ hS hL ha
    exact not_spent_of_late hS (not_not.1 hL) ha

end

end PthreadDllist

/-- The step is the answer "500 proxy too busy". -/
def Pool.GivesUp (s : Pool) (a : Action) : Prop := ∃ i ok, a = .client i ok ∧ s.Expired i

/-- **A timed-out wait rejects only when there is really no room**, in the pool and in the list
    of the clients, in the runs without late steps; and those are the runs in which nobody who
    has timed out is ever beside room. -/
theorem turned_away_full {tp : Tp} {maxNodes : ℕ} (hmax : 1 ≤ tp.maxConn) :
    (∀ n p s, Runs.Path (Pool.step tp) (Pool.init n) p s →
      ((∀ t ∈ Runs.visited p s, t.Spent tp) ↔ ∀ x ∈ p, ¬ x.1.Late tp x.2) ∧
      ((∀ x ∈ p, ¬ x.1.Late tp x.2) → ∀ x ∈ p, x.1.GivesUp x.2 →
        x.1.idleConns.nodes = [] ∧ x.1.busyConns.count + x.1.noopConns.count = tp.maxConn)) ∧
    ∀ n p s, Runs.Path (PthreadDllist.step maxNodes) (PthreadDllist.init n) p s →
      ((∀ t ∈ Runs.visited p s, t.Spent maxNodes) ↔ ∀ x ∈ p, ¬ x.1.Late maxNodes x.2) ∧
      ((∀ x ∈ p, ¬ x.1.Late maxNodes x.2) → ∀ x ∈ p, x.1.GivesUp x.2 → x.1.count = maxNodes) := by
  constructor
  · intro n p s h
    refine ⟨Pool.spent_iff hmax h, ?_⟩
    rintro hL x hx ⟨i, ok, -, hi⟩
    obtain ⟨q, r, hp⟩ := List.append_of_mem hx
    have hS : x.1.Spent tp := (Pool.spent_iff hmax h).2 hL x.1 (Runs.mem_visited_of_mem hx)
    obtain ⟨hI, hC⟩ := Pool.cap_and_inv hmax (h.before hp).reach
    exact Pool.full_of_spent hI hC hS hi
  · intro n p s h
    refine ⟨PthreadDllist.spent_iff h, ?_⟩
    rintro hL x hx ⟨i, ok, -, hi⟩
    exact (PthreadDllist.spent_iff h).2 hL x.1 (Runs.mem_visited_of_mem hx) i hi

/-! ## Runs -/

/-- A client is about to give the only connection back; another one waits, and times out. -/
def waitActs : List Action :=
  List.replicate 8 (.client 0 true) ++ List.replicate 2 (.client 1 true) ++ [.timeout 1]

/-- An append waits for the only place of the list, and times out; the entry there is
    about to be unlinked. -/
def appendActs : List DllistAct :=
  [.append 0 7, .go 0 true, .append 1 8, .go 1 true, .delete 0 (some 7), .go 0 true, .go 0 true,
    .go 0 true, .timeout 1]

/-- Who has timed out is turned away while all is in use. -/
theorem turned_away_full_used :
    (∃ p s, Runs.Path (Pool.step tpPlain) (Pool.init 2) p s ∧ ∃ x ∈ p, x.1.GivesUp x.2 ∧
      x.1.idleConns.nodes = [] ∧ x.1.busyConns.count + x.1.noopConns.count = 1) ∧
    ∃ p s, Runs.Path (PthreadDllist.step 1) (PthreadDllist.init 2) p s ∧ ∃ x ∈ p, x.1.GivesUp x.2 ∧
      x.1.count = 1 := by
  obtain ⟨hpool, hlist⟩ := @turned_away_full tpPlain 1 (by decide)
  constructor
  · obtain ⟨s, hs⟩ : ∃ s, Runs.exec (Pool.step tpPlain) (Pool.init 2)
        (waitActs ++ [.client 1 true]) = some s := ⟨_, rfl⟩
    have hused : ∀ t ∈ Runs.visited (Runs.trace (Pool.step tpPlain) (Pool.init 2)
        (waitActs ++ [.client 1 true])) s, ClientPc.expired ∉ t.clients ∨
        t.idleConns.nodes = [] ∧ t.busyConns.count + t.noopConns.count = tpPlain.maxConn := by
      obtain rfl := (Option.some.inj hs).symm
      decide
    obtain ⟨hspent, hfull⟩ := hpool 2 _ s (Runs.Path.trace hs)
    refine ⟨_, s, Runs.Path.trace hs, List.getLast _ (by decide), List.getLast_mem _,
      ⟨1, true, rfl, rfl⟩, ?_⟩
    refine hfull (hspent.1 fun t ht i hi hroom => ?_) _ (List.getLast_mem _) ⟨1, true, rfl, rfl⟩
    rcases hused t ht with hno | ⟨hidle, hcount⟩
    · exact hno (List.mem_of_getElem? hi)
    · exact hroom.elim (fun h => h hidle) fun h => absurd hcount (Int.ne_of_lt h)
  · obtain ⟨s, hs⟩ : ∃ s, Runs.exec (PthreadDllist.step 1) (PthreadDllist.init 2)
        (appendActs ++ [.go 1 true]) = some s := ⟨_, rfl⟩
    have hused : ∀ t ∈ Runs.visited (Runs.trace (PthreadDllist.step 1) (PthreadDllist.init 2)
        (appendActs ++ [.go 1 true])) s, t.count = 1 ∨
        ∀ pc ∈ t.threads, pc = .out ∨ pc = .append 7 := by
      obtain rfl := (Option.some.inj hs).symm
      decide
    obtain ⟨hspent, hfull⟩ := hlist 2 _ s (Runs.Path.trace hs)
    refine ⟨_, s, Runs.Path.trace hs, List.getLast _ (by decide), List.getLast_mem _,
      ⟨1, true, rfl, 8, rfl⟩, ?_⟩
    refine hfull (hspent.1 ?_) _ (List.getLast_mem _) ⟨1, true, rfl, 8, rfl⟩
    rintro t ht i ⟨data, hi⟩
    refine (hused t ht).resolve_right fun hno => ?_
    rcases hno _ (List.mem_of_getElem? hi) with he | he <;> cases he

/-- **A client is turned away while a connection is idle**, which has been given back between
    the end of its wait and the lock; an append is turned away from an empty list. -/
theorem turned_away_beside_room :
    (∃ s a, Runs.Reach (Pool.step tpPlain) (Pool.init 2) s ∧ s.GivesUp a ∧
      s.idleConns.nodes = [0] ∧ Pool.step tpPlain s a ≠ none) ∧
    ∃ s a, Runs.Reach (PthreadDllist.step 1) (PthreadDllist.init 2) s ∧ s.GivesUp a ∧
      s.count = 0 ∧ PthreadDllist.step 1 s a ≠ none := by
  obtain ⟨s, hs⟩ : ∃ s, Runs.exec (Pool.step tpPlain) (Pool.init 2)
      (waitActs ++ [.client 0 true]) = some s := ⟨_, rfl⟩
  obtain ⟨t, ht⟩ : ∃ t, Runs.exec (PthreadDllist.step 1) (PthreadDllist.init 2)
      (appendActs ++ [.go 0 true]) = some t := ⟨_, rfl⟩
  refine ⟨⟨s, .client 1 true, Runs.Reach.refl.of_exec hs, ?_⟩,
    t, .go 1 true, Runs.Reach.refl.of_exec ht, ?_⟩
  · obtain rfl := (Option.some.inj hs).symm
    exact ⟨⟨1, true, rfl, rfl⟩, rfl, by decide⟩
  · obtain rfl := (Option.some.inj ht).symm
    exact ⟨⟨1, true, rfl, 8, rfl⟩, rfl, Option.some_ne_none _⟩

end SmtpProxy
