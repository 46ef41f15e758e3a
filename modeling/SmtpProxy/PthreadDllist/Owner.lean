/-
  No call goes through a NULL or freed pointer when no entry is deleted twice.

  A step through such a pointer is not enabled (`step`).  When nobody calls
  `pthread_dllistDelete` for data that another delete has not let go yet
  (`Twice`), each node has at most one owner from the moment a delete has
  read the pointer to it until its `free` (`Owned`), and so each step of an append, a
  delete or a visit can be taken as soon as the lock allows it (`go_enabled`).
  The one exception is the last statement of a visit that a handler has stopped,
  which reads its node after the unlock.
-/
import SmtpProxy.PthreadDllist.Invariant

namespace SmtpProxy

/-- The node that a delete works on. -/
def DllistPc.owns? : DllistPc → Option ℕ
  | .clear _ node | .forget _ node | .unlink node | .signal node | .free node => some node
  | _ => none

/-- The node that a delete is to unlink. -/
def DllistPc.holds? : DllistPc → Option ℕ
  | .clear _ node | .forget _ node | .unlink node => some node
  | _ => none

/-- The thread is before a section under the lock. -/
def DllistPc.locks : DllistPc → Bool
  | .append _ | .woken _ | .expired _ | .unlink _ | .visit => true
  | _ => false

/-- The thread can go on by itself. -/
def DllistPc.goes : DllistPc → Bool
  | .out | .wait _ | .signal _ | .stopped _ => false
  | _ => true

namespace PthreadDllist

def Owns (s : PthreadDllist) (i node : ℕ) : Prop :=
  s.threads[i]?.bind DllistPc.owns? = some node

def Holds (s : PthreadDllist) (i node : ℕ) : Prop :=
  s.threads[i]?.bind DllistPc.holds? = some node

def Deletes (s : PthreadDllist) (i data : ℕ) : Prop :=
  s.threads[i]?.bind DllistPc.deleting? = some data

/-- A delete is called for data that another one is deleting. -/
def Twice (s : PthreadDllist) (a : DllistAct) : Prop :=
  ∃ i j data, a = .delete i (some data) ∧ s.Deletes j data

/-- Each node has one owner: the data that point to it, or the delete that works on it. -/
structure Owned (s : PthreadDllist) (l : List ℕ) : Prop where
  node : ∀ x n, s.node x = some n → n ∈ l
  inj : ∀ x y n, s.node x = some n → s.node y = some n → x = y
  holds : ∀ i n, s.Holds i n → n ∈ l
  alive : ∀ i n, s.Owns i n → s.heap.get n ≠ none
  alone : ∀ i j n, s.Owns i n → s.Owns j n → i = j
  known : ∀ i n x, s.Owns i n → s.node x = some n → s.Deletes i x

/-- No two deletes for the same data. -/
def Once (s : PthreadDllist) : Prop := ∀ i j x, s.Deletes i x → s.Deletes j x → i = j

section
variable {maxNodes : ℕ} {s t : PthreadDllist} {a : DllistAct} {l : List ℕ}

theorem owns_of_holds {pc : DllistPc} {n : ℕ} (h : pc.holds? = some n) : pc.owns? = some n := by
  cases pc with
  | clear | forget | unlink => exact h
  | _ => cases h

/-- A thread goes on, and owns its node alone; the others keep theirs. -/
theorem owned_goto {l' : List ℕ} {i : ℕ} {pc pc' : DllistPc} (hO : s.Owned l)
    (hi : s.threads[i]? = some pc) (ht : t.threads = s.threads)
    (hnode : ∀ x n, t.node x = some n → n ∈ l' ∧ (s.node x = some n ∨ ∀ j, ¬ s.Owns j n))
    (hinj : ∀ x y n, t.node x = some n → t.node y = some n → x = y)
    (hl : ∀ j n, j ≠ i → s.Holds j n → n ∈ l')
    (halive : ∀ j n, j ≠ i → s.Owns j n → t.heap.get n ≠ none)
    (hown : ∀ n, pc'.owns? = some n → t.heap.get n ≠ none ∧ (∀ j, s.Owns j n → j = i) ∧
      (pc'.holds? = some n → n ∈ l') ∧ ∀ x, t.node x = some n → pc'.deleting? = some x) :
    (t.goto i pc').Owned l' := by
  have hcase : ∀ j n, (t.goto i pc').Owns j n →
      j = i ∧ pc'.owns? = some n ∨ j ≠ i ∧ s.Owns j n := by
    intro j n hj
    rw [Owns, bind_goto _ hi ht] at hj
    split at hj
    · exact Or.inl ⟨‹_›, hj⟩
    · exact Or.inr ⟨‹_›, hj⟩
  constructor
  · intro x n hx
    exact (hnode x n hx).1
  · exact hinj
  · intro j n hj
    rw [Holds, bind_goto _ hi ht] at hj
    split at hj
    · exact (hown n (owns_of_holds hj)).2.2.1 hj
    · exact hl j n ‹_› hj
  · intro j n hj
    rcases hcase j n hj with ⟨-, hpc⟩ | ⟨hji, hj⟩
    · exact (hown n hpc).1
    · exact halive j n hji hj
  · intro j k n hj hk
    rcases hcase j n hj with ⟨hji, hpc⟩ | ⟨hji, hj'⟩
    · rcases hcase k n hk with ⟨hki, -⟩ | ⟨hki, hk'⟩
      · exact hji.trans hki.symm
      · exact absurd ((hown n hpc).2.1 k hk') hki
    · rcases hcase k n hk with ⟨-, hpc⟩ | ⟨-, hk'⟩
      · exact absurd ((hown n hpc).2.1 j hj') hji
      · exact hO.alone j k n hj' hk'
  · intro j n x hj hx
    rw [Deletes, bind_goto _ hi ht]
    rcases hcase j n hj with ⟨hji, hpc⟩ | ⟨hji, hj⟩
    · rw [if_pos hji]
      exact (hown n hpc).2.2.2 x hx
    · rw [if_neg hji]
      exact hO.known j n x hj ((hnode x n hx).2.resolve_right fun hno => hno j hj)

/-- The list and the pointers stay as they are, and the thread owns what it owned, or nothing. -/
theorem owned_same {i : ℕ} {pc pc' : DllistPc} (hO : s.Owned l) (hi : s.threads[i]? = some pc)
    (ht : t.threads = s.threads) (hnode : t.node = s.node)
    (hpc' : pc'.owns? = none ∨
      pc'.owns? = pc.owns? ∧ pc'.deleting? = pc.deleting? ∧
        (pc'.holds? = none ∨ pc'.holds? = pc.holds?))
    (halive : ∀ n, s.heap.get n ≠ none → t.heap.get n ≠ none) : (t.goto i pc').Owned l := by
  refine owned_goto hO hi ht (fun x n hx => ?_) (fun x y n hx hy => ?_)
    (fun j n _ hj => hO.holds j n hj)
    (fun j n _ hj => halive n (hO.alive j n hj)) fun n hn => ?_
  · rw [hnode] at hx
    exact ⟨hO.node x n hx, Or.inl hx⟩
  · rw [hnode] at hx hy
    exact hO.inj x y n hx hy
  · rcases hpc' with hnone | ⟨howns, hdel, hholds⟩
    · rw [hnone] at hn
      cases hn
    · have hself : s.Owns i n := by
        rw [Owns, hi]
        exact howns.symm.trans hn
      refine ⟨halive n (hO.alive i n hself), fun j hj => hO.alone j i n hj hself, fun hh => ?_,
        fun x hx => ?_⟩
      · rcases hholds with hnone | hsame
        · rw [hnone] at hh
          cases hh
        · refine hO.holds i n ?_
          rw [Holds, hi]
          exact hsame.symm.trans hh
      · have hknown := hO.known i n x hself (hnode ▸ hx)
        rw [Deletes, hi] at hknown
        exact hdel.trans hknown

/-! ## The steps -/

/-- **Who deletes data** has just called it, or was deleting them before. -/
theorem deletes_of_step {i x : ℕ} (h : step maxNodes s a = some t) (hi : t.Deletes i x) :
    s.Deletes i x ∨ a = .delete i (some x) := by
  rcases moved_of_step h i with ⟨hsame, -⟩ | ⟨pc, pc', hi₀, hi₁, hm⟩
  · rw [Deletes, hsame] at hi
    exact Or.inl hi
  · rw [Deletes, hi₁] at hi
    cases hm with
    | delete => exact Or.inr (by rw [Option.some.inj hi])
    | go ht hent =>
      rcases hent.2 with hnone | hsame
      · rw [Option.bind_some, hnone] at hi
        cases hi
      · rw [Deletes, hi₀]
        exact Or.inl (hsame.symm.trans hi)
    | _ => cases hi

theorem once_of_step (hS : s.Once) (hT : ¬ s.Twice a) (h : step maxNodes s a = some t) :
    t.Once := by
  intro i j x hi hj
  rcases deletes_of_step h hi with hi' | rfl
  · rcases deletes_of_step h hj with hj' | rfl
    · exact hS i j x hi' hj'
    · exact absurd ⟨j, i, x, rfl, hi'⟩ hT
  · rcases deletes_of_step h hj with hj' | he
    · exact absurd ⟨i, j, x, rfl, hj'⟩ hT
    · cases he
      rfl

theorem owned_link {i x : ℕ} {pc : DllistPc} {u : PthreadDllist} (hS : s.Shape l) (hO : s.Owned l)
    (hi : s.threads[i]? = some pc) (hu : s.linkNode x = some u) :
    (u.goto i .out).Owned (l ++ [s.heap.fresh]) := by
  obtain ⟨u', hu', -, hadd⟩ := linkNode_shape hS x
  obtain rfl : u' = u := Option.some.inj (hu'.symm.trans hu)
  have hfresh : ∀ j, ¬ s.Owns j s.heap.fresh := fun j hj => hO.alive j _ hj s.heap.get_fresh
  have hnew : ∀ y, s.node y ≠ some s.heap.fresh := fun y hy =>
    hS.alive _ (hO.node y _ hy) s.heap.get_fresh
  have hnode : ∀ y n, u'.node y = some n → y = x ∧ n = s.heap.fresh ∨ y ≠ x ∧ s.node y = some n := by
    intro y n hy
    rw [hadd.node] at hy
    by_cases hyx : y = x
    · subst hyx
      rw [Function.update_self] at hy
      exact Or.inl ⟨rfl, (Option.some.inj hy).symm⟩
    · rw [Function.update_of_ne hyx] at hy
      exact Or.inr ⟨hyx, hy⟩
  refine owned_goto hO hi hadd.threads (fun y n hy => ?_) (fun y z n hy hz => ?_)
    (fun j n _ hj => List.mem_append_left _ (hO.holds j n hj)) (fun j n _ hj hn => ?_)
    fun n hn => by cases hn
  · rcases hnode y n hy with ⟨-, rfl⟩ | ⟨-, hy'⟩
    · exact ⟨by simp, Or.inr hfresh⟩
    · exact ⟨List.mem_append_left _ (hO.node y n hy'), Or.inl hy'⟩
  · rcases hnode y n hy with ⟨rfl, rfl⟩ | ⟨-, hy'⟩
    · rcases hnode z _ hz with ⟨rfl, -⟩ | ⟨-, hz'⟩
      · rfl
      · exact absurd hz' (hnew z)
    · rcases hnode z n hz with ⟨rfl, rfl⟩ | ⟨-, hz'⟩
      · exact absurd hy' (hnew y)
      · exact hO.inj y z n hy' hz'
  · exact hO.alive j n hj ((hadd.alloc n).1 hn).2

theorem owned_unlink {i n : ℕ} {pc' : DllistPc} {u : PthreadDllist} (hS : s.Shape l)
    (hO : s.Owned l) (hi : s.threads[i]? = some (.unlink n)) (hu : s.unlinkNode n = some u)
    (hpc' : pc' = .signal n ∨ pc' = .free n) : (u.goto i pc').Owned (l.erase n) := by
  have hself : s.Owns i n := by rw [Owns, hi]; rfl
  have hn : n ∈ l := hO.holds i n (by rw [Holds, hi]; rfl)
  obtain ⟨u', hu', -, hkeep⟩ := unlinkNode_shape hS hn
  obtain rfl : u' = u := Option.some.inj (hu'.symm.trans hu)
  have hnd : l.Nodup := hS.chain.nodup
  have halive : ∀ m, s.heap.get m ≠ none → u'.heap.get m ≠ none := fun m hm =>
    mt (fun hm' => by rw [← Option.map_eq_none_iff, ← hkeep.data, hm', Option.map_none]) hm
  -- no data point to the node any more
  have hlost : ∀ x, s.node x ≠ some n := by
    intro x hx
    have hdel := hO.known i n x hself hx
    rw [Deletes, hi] at hdel
    cases hdel
  have howns : ∀ m, pc'.owns? = some m → m = n := by
    intro m hm
    rcases hpc' with rfl | rfl <;> exact (Option.some.inj hm).symm
  have hholds : pc'.holds? = none := by rcases hpc' with rfl | rfl <;> rfl
  refine owned_goto hO hi hkeep.threads (fun x m hx => ?_) (fun x y m hx hy => ?_)
    (fun j m hji hj => ?_)
    (fun j m _ hj => halive m (hO.alive j m hj)) fun m hm => ?_
  · rw [hkeep.node] at hx
    refine ⟨(hnd.mem_erase_iff).2 ⟨?_, hO.node x m hx⟩, Or.inl hx⟩
    rintro rfl
    exact hlost x hx
  · rw [hkeep.node] at hx hy
    exact hO.inj x y m hx hy
  · refine (hnd.mem_erase_iff).2 ⟨?_, hO.holds j m hj⟩
    rintro rfl
    obtain ⟨pc, hpc, hh⟩ := Option.bind_eq_some_iff.1 hj
    refine hji (hO.alone j i m ?_ hself)
    rw [Owns, hpc]
    exact owns_of_holds hh
  · obtain rfl := howns m hm
    refine ⟨halive m (hO.alive i m hself), fun j hj => hO.alone j i m hj hself, fun hh => ?_,
      fun x hx => ?_⟩
    · rw [hholds] at hh
      cases hh
    · rw [hkeep.node] at hx
      exact absurd hx (hlost x)

theorem owned_found {i x n : ℕ} (hS : s.Shape l) (hO : s.Owned l) (h1 : s.Once)
    (hi : s.threads[i]? = some (.delete x)) (hn : s.node x = some n) :
    (s.goto i (.clear x n)).Owned l := by
  have hdel : s.Deletes i x := by rw [Deletes, hi]; rfl
  refine owned_goto hO hi rfl (fun y m hy => ⟨hO.node y m hy, Or.inl hy⟩) hO.inj
    (fun j m _ hj => hO.holds j m hj) (fun j m _ hj => hO.alive j m hj) fun m hm => ?_
  obtain rfl : n = m := Option.some.inj hm
  refine ⟨hS.alive n (hO.node x n hn), fun j hj => ?_, fun _ => hO.node x n hn, fun y hy => ?_⟩
  · exact h1 j i x (hO.known j n x hj hn) hdel
  · rw [hO.inj y x n hy hn]
    rfl

theorem owned_forget {i x n : ℕ} (hO : s.Owned l) (hi : s.threads[i]? = some (.forget x n)) :
    ({ s with node := Function.update s.node x none }.goto i (.unlink n)).Owned l := by
  have hself : s.Owns i n := by rw [Owns, hi]; rfl
  have hnode : ∀ y m, Function.update s.node x none y = some m → y ≠ x ∧ s.node y = some m := by
    intro y m hy
    by_cases hyx : y = x
    · subst hyx
      rw [Function.update_self] at hy
      cases hy
    · rw [Function.update_of_ne hyx] at hy
      exact ⟨hyx, hy⟩
  refine owned_goto hO hi rfl (fun y m hy => ?_) (fun y z m hy hz => ?_)
    (fun j m _ hj => hO.holds j m hj) (fun j m _ hj => hO.alive j m hj) fun m hm => ?_
  · exact ⟨hO.node y m (hnode y m hy).2, Or.inl (hnode y m hy).2⟩
  · exact hO.inj y z m (hnode y m hy).2 (hnode z m hz).2
  · obtain rfl : n = m := Option.some.inj hm
    refine ⟨hO.alive i n hself, fun j hj => hO.alone j i n hj hself,
      fun _ => hO.holds i n (by rw [Holds, hi]; rfl), fun y hy => ?_⟩
    -- only the data it deletes pointed to the node
    obtain ⟨hyx, hy'⟩ := hnode y n hy
    have hdel := hO.known i n y hself hy'
    rw [Deletes, hi] at hdel
    exact absurd (Option.some.inj hdel).symm hyx

theorem owned_free {i n : ℕ} {heap : Heap PthreadNode} (hO : s.Owned l)
    (hi : s.threads[i]? = some (.free n)) (hf : s.heap.free n = some heap) :
    ({ s with heap := heap }.goto i .out).Owned l := by
  have hself : s.Owns i n := by rw [Owns, hi]; rfl
  obtain ⟨-, hget, -⟩ := Heap.free_some hf
  refine owned_goto hO hi rfl (fun y m hy => ⟨hO.node y m hy, Or.inl hy⟩) hO.inj
    (fun j m _ hj => hO.holds j m hj) (fun j m hji hj => ?_) fun m hm => by cases hm
  have hmn : m ≠ n := by
    rintro rfl
    exact hji (hO.alone j i m hj hself)
  change heap.get m ≠ none
  rw [hget, Function.update_of_ne hmn]
  exact hO.alive j m hj

theorem owned_of_step {d d' : Trace} (hI : Inv maxNodes d) (h1 : d.state.Once)
    (hO : d.state.Owned (live d.log)) {e : Option DllistEvent}
    (h : Trans maxNodes d.state d'.state e) (hlog : d'.log = d.log ++ e.toList) :
    d'.state.Owned (live d'.log) := by
  obtain ⟨s, log⟩ := d
  obtain ⟨t, log'⟩ := d'
  dsimp only at h hlog h1 hO
  subst hlog
  have hS : s.Shape (live log) := hI.shape
  have hlight : ∀ {pc : DllistPc}, pc.light → pc.owns? = none := by
    intro pc hpc
    cases pc with
    | clear | forget | unlink | signal | free => cases hpc
    | _ => rfl
  cases h with
  | stay => rwa [Option.toList_none, List.append_nil]
  | @move i pc pc' e hi hpc hpc' he =>
    dsimp only
    rw [live_quiet he]
    exact owned_same hO hi rfl rfl (Or.inl (hlight hpc')) fun _ hn => hn
  | @link i x pc u hi hpc hd hm hroom hu =>
    have hnew : .unlinked s.heap.fresh ∉ log := fun hn => Nat.lt_irrefl _ (hI.seen _ hn)
    dsimp only
    rw [Option.toList_some, live_linked hnew]
    exact owned_link hS hO hi hu
  | @unlink i n pc' u hi hm hu hpc' =>
    dsimp only
    rw [Option.toList_some, live_unlinked hS.chain.nodup]
    exact owned_unlink hS hO hi hu hpc'
  | @next i idx n k hi | @stop i idx n k hi =>
    dsimp only
    rw [Option.toList_some, live_handled]
    exact owned_same hO hi rfl rfl (Or.inl rfl) fun _ hn => hn
  | @found i x n hi hn =>
    dsimp only
    rw [live_quiet rfl]
    exact owned_found hS hO h1 hi hn
  | @clear i x n heap hi hw =>
    dsimp only
    rw [live_quiet rfl]
    refine owned_same hO hi rfl rfl (Or.inr ⟨rfl, rfl, Or.inr rfl⟩) fun m hm => ?_
    exact mt (Heap.write_eq_none_iff hw m).1 hm
  | @forget i x n hi =>
    dsimp only
    rw [live_quiet rfl]
    exact owned_forget hO hi
  | @pass i n hi =>
    dsimp only
    rw [live_quiet rfl]
    exact owned_same hO hi rfl rfl (Or.inr ⟨rfl, rfl, Or.inl rfl⟩) fun _ hn => hn
  | @wake i j n x hi hj =>
    dsimp only
    rw [live_quiet rfl]
    have hO' : (s.goto j (.woken x)).Owned (live log) :=
      owned_same hO hj rfl rfl (Or.inl rfl) fun _ hn => hn
    have hne : i ≠ j := by
      rintro rfl
      cases hi.symm.trans hj
    have hi' : (s.goto j (.woken x)).threads[i]? = some (.signal n) := by
      rw [get_goto, if_neg hne, hi]
    exact owned_same hO' hi' rfl rfl (Or.inr ⟨rfl, rfl, Or.inl rfl⟩) fun _ hn => hn
  | @free i n heap hi hf =>
    dsimp only
    rw [live_quiet rfl]
    exact owned_free hO hi hf
  | @lock i hi | @finish i idx hi =>
    dsimp only
    rw [live_quiet rfl]
    exact owned_same hO hi rfl rfl (Or.inl rfl) fun _ hn => hn

/-! ## Runs -/

theorem owned_init (n : ℕ) : (init n).Owned [] := by
  have hnone : ∀ {γ : Type} {f : DllistPc → Option γ} {i : ℕ} {x : γ}, f .out = none →
      (init n).threads[i]?.bind f = some x → False := by
    intro γ f i x hf hx
    obtain ⟨pc, hpc, hfx⟩ := Option.bind_eq_some_iff.1 hx
    obtain rfl := List.eq_of_mem_replicate (List.mem_of_getElem? hpc)
    rw [hf] at hfx
    cases hfx
  refine ⟨fun x m hx => ?_, fun x y m hx => ?_, ?_, ?_, ?_, ?_⟩
  · cases hx
  · cases hx
  · exact fun i m hm => (hnone rfl hm).elim
  · exact fun i m hm => (hnone rfl hm).elim
  · exact fun i j m hm => (hnone rfl hm).elim
  · exact fun i m x hm => (hnone rfl hm).elim

theorem once_init (n : ℕ) : (init n).Once := by
  intro i j x hi
  obtain ⟨pc, hpc, hx⟩ := Option.bind_eq_some_iff.1 hi
  obtain rfl := List.eq_of_mem_replicate (List.mem_of_getElem? hpc)
  cases hx

/-- **No dead pointers.**  In a run in which nobody deletes data that are being deleted, a
    thread in an append, a delete or a visit goes on as soon as the lock allows it: the
    nodes it reads, writes and frees are there. -/
theorem go_enabled {n : ℕ} {p : List (Trace × DllistAct)} {d : Trace}
    (h : Runs.Path (Runs.Logged.step (step maxNodes) event) (Runs.Logged.start (init n)) p d)
    (hT : ∀ x ∈ p, ¬ x.1.state.Twice x.2) {i : ℕ} {ok : Bool} {pc : DllistPc}
    (hi : d.state.threads[i]? = some pc) (hgo : pc.goes) (hm : pc.locks → d.state.mtx = none) :
    step maxNodes d.state (.go i ok) ≠ none := by
  obtain ⟨hI, -, hO⟩ : Inv maxNodes d ∧ d.state.Once ∧ d.state.Owned (live d.log) := by
    refine h.inv_of (I := fun d => Inv maxNodes d ∧ d.state.Once ∧ d.state.Owned (live d.log))
      (C := fun d a => ¬ d.state.Twice a) hT ⟨inv_init n, once_init n, owned_init n⟩ ?_
    rintro d a d' ⟨hI, h1, hO⟩ hT ha
    obtain ⟨hs, hlog⟩ := Runs.Logged.step_eq_some.1 ha
    exact ⟨inv_trans hI (trans_of_step hs) hlog, once_of_step h1 hT hs,
      owned_of_step hI h1 hO (trans_of_step hs) hlog⟩
  have hself : ∀ m, pc.owns? = some m → d.state.heap.get m ≠ none := fun m hm =>
    hO.alive i m (by rw [Owns, hi]; exact hm)
  rw [step, hi, Option.bind_some]
  cases pc with
  | out | wait | signal | stopped => cases hgo
  | append x | woken x =>
    rw [goStep, if_pos (hm rfl), appendLocked]
    split
    · simp
    · split
      · simp
      · obtain ⟨u, hu, -⟩ := linkNode_shape hI.shape x
        simp [hu]
  | expired x | visit => simp [goStep, hm rfl]
  | delete x | forget x m => simp [goStep]
  | clear x m =>
    obtain ⟨heap, hw⟩ := Heap.write_isSome (f := fun k : PthreadNode => { k with data := none })
      (hself m rfl)
    simp [goStep, hw]
  | unlink m =>
    obtain ⟨u, hu, -⟩ := unlinkNode_shape hI.shape (hO.holds i m (by rw [Holds, hi]; rfl))
    simp [goStep, hm rfl, hu]
  | free m =>
    simp [goStep, Heap.free, hself m rfl]
  | visiting idx node =>
    cases node with
    | none => simp [goStep]
    | some m =>
      have halive := hI.shape.alive m ((hI.threads i _ hi).2 m rfl)
      obtain ⟨k, hk⟩ := Option.ne_none_iff_exists'.1 halive
      simp [goStep, hk]

end

/-- Two clients are appended, and the first is being deleted. -/
def deletingRun : List DllistAct :=
  [.append 0 7, .go 0 true, .append 1 8, .go 1 true, .delete 0 (some 7), .go 0 true]

theorem go_enabled_deleting : ∃ d : Trace, d.state.threads[0]? = some (.clear 7 0) ∧
    step 2 d.state (.go 0 true) ≠ none := by
  obtain ⟨d, hd⟩ : ∃ d, Runs.exec (Runs.Logged.step (step 2) event) (Runs.Logged.start (init 2))
      deletingRun = some d := ⟨_, rfl⟩
  have hpc : d.state.threads[0]? = some (.clear 7 0) := by
    obtain rfl := (Option.some.inj hd).symm
    rfl
  refine ⟨d, hpc, go_enabled (Runs.Path.trace hd) ?_ hpc rfl nofun⟩
  -- nobody deletes when the delete is called
  have hnone : ∀ x ∈ Runs.trace (Runs.Logged.step (step 2) event) (Runs.Logged.start (init 2))
      deletingRun, x.2 = .go 0 true ∨ ∀ pc ∈ x.1.state.threads, pc.deleting? = none := by decide
  rintro x hx ⟨i, j, y, hact, hj⟩
  rcases hnone x hx with hgo | hdel
  · rw [hact] at hgo
    cases hgo
  · obtain ⟨pc, hpc, hy⟩ := Option.bind_eq_some_iff.1 hj
    rw [hdel pc (List.mem_of_getElem? hpc)] at hy
    cases hy

end PthreadDllist

end SmtpProxy
