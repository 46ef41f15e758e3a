/-
  What the handlers of `pthread_dllistVisit` are called with.

  `pthread_dllistDelete` clears `node->data` before it takes the lock, so a
  visitor that comes to the node before it is unlinked calls its handler with
  NULL (`abortCl` then reads through it).

  * `Leaving`: a delete has cleared the data of a node and not unlinked it;
  * `Entries`: a node of the list has the data it was appended with, or one
    leaves with it;
  * `Sees`: all handlers so far were called with the data of live entries;
  * `sees_iff`: they are as long as no visitor comes to a node that leaves
    (`Blind`).
-/
import SmtpProxy.PthreadDllist.Invariant

namespace SmtpProxy

/-- The node whose data a delete has cleared, before it is unlinked. -/
def DllistPc.leaves? : DllistPc → Option ℕ
  | .forget _ node | .unlink node => some node
  | _ => none

/-- The node that a visitor is at. -/
def DllistPc.visits? : DllistPc → Option ℕ
  | .visiting _ node => node
  | _ => none

namespace PthreadDllist

/-- The thread `i` has cleared the data of the node, and not yet unlinked it. -/
def Leaving (s : PthreadDllist) (i node : ℕ) : Prop :=
  s.threads[i]?.bind DllistPc.leaves? = some node

/-- The visitor `i` is at a node that is leaving. -/
def Blind (s : PthreadDllist) (a : DllistAct) : Prop :=
  ∃ i ok idx node, a = .go i ok ∧ s.threads[i]? = some (.visiting idx (some node)) ∧
    ∃ j, s.Leaving j node

/-- All handlers were called with the data of an entry that had been appended and not
    been unlinked. -/
def Sees (log : List DllistEvent) : Prop :=
  ∀ l₁ idx x l₂, log = l₁ ++ .handled idx x :: l₂ →
    ∃ y node, x = some y ∧ .linked y node ∈ l₁ ∧ .unlinked node ∉ l₁

/-- The data of the nodes. -/
structure Entries (d : Trace) : Prop where
  data : ∀ n ∈ live d.log, ∃ x, .linked x n ∈ d.log ∧
    (d.state.heap.field PthreadNode.data n = some x ∨ ∃ i, d.state.Leaving i n)
  gone : ∀ i n, d.state.Leaving i n → d.state.heap.field PthreadNode.data n = none

section
variable {maxNodes : ℕ} {s t : PthreadDllist} {log : List DllistEvent}

theorem mem_live {n : ℕ} : n ∈ live log ↔ (∃ x, .linked x n ∈ log) ∧ .unlinked n ∉ log := by
  rw [live, List.mem_filter, List.mem_filterMap]
  refine and_congr ⟨?_, ?_⟩ (by simp)
  · rintro ⟨e, he, hn⟩
    cases e with
    | linked x m =>
      obtain rfl : m = n := Option.some.inj hn
      exact ⟨x, he⟩
    | _ => cases hn
  · rintro ⟨x, hx⟩
    exact ⟨_, hx, rfl⟩

theorem sees_snoc {e : DllistEvent} : Sees (log ++ [e]) ↔ Sees log ∧ ∀ idx x, e = .handled idx x →
    ∃ y node, x = some y ∧ .linked y node ∈ log ∧ .unlinked node ∉ log := by
  constructor
  · intro h
    refine ⟨fun l₁ idx x l₂ hl => h l₁ idx x (l₂ ++ [e]) (by rw [hl]; simp), ?_⟩
    rintro idx x rfl
    exact h log idx x [] rfl
  · rintro ⟨hlog, he⟩ l₁ idx x l₂ hl
    rcases List.eq_nil_or_concat l₂ with rfl | ⟨l₂, e', rfl⟩
    · obtain ⟨rfl, hlast⟩ := List.append_inj' hl rfl
      exact he idx x (List.head_eq_of_cons_eq hlast)
    · rw [List.concat_eq_append, ← List.cons_append, ← List.append_assoc] at hl
      exact hlog l₁ idx x l₂ (List.append_inj' hl rfl).1

theorem sees_other {e : Option DllistEvent} (he : ∀ idx x, e ≠ some (.handled idx x)) :
    Sees (log ++ e.toList) ↔ Sees log := by
  cases e with
  | none => rw [Option.toList_none, List.append_nil]
  | some e =>
    rw [Option.toList_some, sees_snoc]
    exact and_iff_left fun idx x hx => absurd (congrArg some hx) (he idx x)

/-! ## Nodes that leave -/

theorem leaving_goto {i j n : ℕ} {pc pc' : DllistPc} (hi : s.threads[i]? = some pc)
    (ht : t.threads = s.threads) :
    (t.goto i pc').Leaving j n ↔ if j = i then pc'.leaves? = some n else s.Leaving j n := by
  rw [Leaving, bind_goto _ hi ht]
  split <;> exact Iff.rfl

/-- A thread that goes on leaves with the node it left with. -/
theorem leaving_same {i : ℕ} {pc pc' : DllistPc} (hi : s.threads[i]? = some pc)
    (ht : t.threads = s.threads) (hpc : pc'.leaves? = pc.leaves?) (j n : ℕ) :
    (t.goto i pc').Leaving j n ↔ s.Leaving j n := by
  rw [leaving_goto hi ht, hpc]
  split
  · rename_i hji
    subst hji
    rw [Leaving, hi]
    rfl
  · exact Iff.rfl

/-- A step that lets nobody leave, and keeps the data of the list. -/
theorem entries_same {d d' : Trace} (hE : Entries d) (hlive : live d'.log = live d.log)
    (hlog : d.log <+: d'.log)
    (hdata : ∀ n, d'.state.heap.field PthreadNode.data n = d.state.heap.field PthreadNode.data n ∨
      n ∉ live d'.log ∧ d'.state.heap.field PthreadNode.data n = none)
    (hleave : ∀ j n, d'.state.Leaving j n ↔ d.state.Leaving j n) : Entries d' where
  data n hn := by
    obtain ⟨x, hx, hdn⟩ := hE.data n (hlive ▸ hn)
    refine ⟨x, hlog.subset hx, ?_⟩
    rw [(hdata n).resolve_right fun h => h.1 hn]
    exact hdn.imp_right fun ⟨j, hj⟩ => ⟨j, (hleave j n).2 hj⟩
  gone j n hj := by
    rcases hdata n with h | h
    · rw [h]
      exact hE.gone j n ((hleave j n).1 hj)
    · exact h.2

/-- A thread goes on, with the node it left with, and the heap stays. -/
theorem entries_goto {i : ℕ} {pc pc' : DllistPc} {e : Option DllistEvent} (hE : Entries ⟨s, log⟩)
    (hi : s.threads[i]? = some pc) (hpc : pc'.leaves? = pc.leaves?) (ht : t.threads = s.threads)
    (hheap : t.heap = s.heap) (hlive : live (log ++ e.toList) = live log) :
    Entries ⟨t.goto i pc', log ++ e.toList⟩ := by
  refine entries_same hE hlive (List.prefix_append _ _) (fun n => Or.inl ?_)
    (leaving_same hi ht hpc)
  change t.heap.field _ n = s.heap.field _ n
  rw [hheap]

theorem lt_of_leaving {j n : ℕ} (hI : Inv maxNodes ⟨s, log⟩) (h : s.Leaving j n) :
    n < s.heap.fresh := by
  obtain ⟨pc, hj, hpc⟩ := Option.bind_eq_some_iff.1 h
  have hclaim : s.Claim (live log) j pc := hI.threads j pc hj
  cases pc with
  | forget y m | unlink m =>
    obtain rfl : m = n := Option.some.inj hpc
    exact hclaim
  | _ => cases hpc

theorem entries_link {i x : ℕ} {pc : DllistPc} {u : PthreadDllist} (hI : Inv maxNodes ⟨s, log⟩)
    (hE : Entries ⟨s, log⟩) (hi : s.threads[i]? = some pc) (hpc : pc.light)
    (hu : s.linkNode x = some u) :
    Entries ⟨u.goto i .out, log ++ [.linked x s.heap.fresh]⟩ := by
  obtain ⟨u', hu', -, hadd⟩ := linkNode_shape hI.shape x
  obtain rfl : u' = u := Option.some.inj (hu'.symm.trans hu)
  have hnew : .unlinked s.heap.fresh ∉ log := fun hn => Nat.lt_irrefl _ (hI.seen _ hn)
  have hnone : pc.leaves? = none := by
    cases pc with
    | forget | unlink => cases hpc
    | _ => rfl
  have hleave : ∀ j n, (u'.goto i .out).Leaving j n ↔ s.Leaving j n :=
    leaving_same hi hadd.threads hnone.symm
  constructor
  · intro n hn
    dsimp only at hn ⊢
    rw [live_linked hnew, List.mem_append, List.mem_singleton] at hn
    rcases hn with hn | rfl
    · obtain ⟨y, hy, hdn⟩ := hE.data n hn
      have hne : n ≠ s.heap.fresh := fun he => hI.shape.alive n hn (he ▸ s.heap.get_fresh)
      refine ⟨y, List.mem_append_left _ hy, ?_⟩
      change u'.heap.field _ n = _ ∨ _
      rw [hadd.data n hne]
      exact hdn.imp_right fun ⟨j, hj⟩ => ⟨j, (hleave j n).2 hj⟩
    · exact ⟨x, by simp, Or.inl hadd.self⟩
  · intro j n hj
    have hj' := (hleave j n).1 hj
    have hne : n ≠ s.heap.fresh := Nat.ne_of_lt (lt_of_leaving hI hj')
    change u'.heap.field _ n = none
    rw [hadd.data n hne]
    exact hE.gone j n hj'

theorem entries_clear {i x n : ℕ} {heap : Heap PthreadNode} (hE : Entries ⟨s, log⟩)
    (hi : s.threads[i]? = some (.clear x n))
    (hw : (s.heap.write n fun k => { k with data := none }) = some heap) :
    Entries ⟨{ s with heap := heap }.goto i (.forget x n), log⟩ := by
  have hleave : ∀ j m, ({ s with heap := heap }.goto i (.forget x n)).Leaving j m ↔
      if j = i then some n = some m else s.Leaving j m := fun j m => leaving_goto hi rfl
  constructor
  · intro m hm
    obtain ⟨y, hy, hdm⟩ := hE.data m hm
    refine ⟨y, hy, ?_⟩
    by_cases hmn : m = n
    · subst hmn
      exact Or.inr ⟨i, (hleave i m).2 (by rw [if_pos rfl])⟩
    · refine hdm.imp (fun hd => (Heap.field_write_of_ne hw hmn).trans hd) ?_
      rintro ⟨j, hj⟩
      have hji : j ≠ i := by
        rintro rfl
        rw [Leaving, hi] at hj
        cases hj
      exact ⟨j, (hleave j m).2 (by rw [if_neg hji]; exact hj)⟩
  · intro j m hj
    change heap.field _ m = none
    by_cases hmn : m = n
    · subst hmn
      exact Heap.field_write_self hw fun _ => rfl
    · have hj' := (hleave j m).1 hj
      split at hj'
      · exact absurd (Option.some.inj hj').symm hmn
      · rw [Heap.field_write_of_ne hw hmn]
        exact hE.gone j m hj'

theorem entries_unlink {i n : ℕ} {pc' : DllistPc} {u : PthreadDllist} (hI : Inv maxNodes ⟨s, log⟩)
    (hE : Entries ⟨s, log⟩) (hi : s.threads[i]? = some (.unlink n)) (hu : s.unlinkNode n = some u)
    (hpc' : pc' = .signal n ∨ pc' = .free n) : Entries ⟨u.goto i pc', log ++ [.unlinked n]⟩ := by
  have hn : n ∈ live log := by
    by_contra hno
    rw [unlinkNode_none hI.shape hno] at hu
    cases hu
  obtain ⟨u', hu', -, hkeep⟩ := unlinkNode_shape hI.shape hn
  obtain rfl : u' = u := Option.some.inj (hu'.symm.trans hu)
  have hnd : (live log).Nodup := hI.shape.chain.nodup
  have hnone : pc'.leaves? = none := by rcases hpc' with rfl | rfl <;> rfl
  have hleave : ∀ j m, (u'.goto i pc').Leaving j m ↔
      if j = i then pc'.leaves? = some m else s.Leaving j m :=
    fun j m => leaving_goto hi hkeep.threads
  have hdata := hkeep.field_data
  constructor
  · intro m hm
    dsimp only at hm ⊢
    rw [live_unlinked hnd, hnd.mem_erase_iff] at hm
    obtain ⟨y, hy, hdm⟩ := hE.data m hm.2
    refine ⟨y, List.mem_append_left _ hy, ?_⟩
    change u'.heap.field _ m = _ ∨ _
    rw [hdata]
    refine hdm.imp_right ?_
    rintro ⟨j, hj⟩
    have hji : j ≠ i := by
      rintro rfl
      rw [Leaving, hi] at hj
      exact hm.1 (Option.some.inj hj).symm
    exact ⟨j, (hleave j m).2 (by rw [if_neg hji]; exact hj)⟩
  · intro j m hj
    have hj' := (hleave j m).1 hj
    rw [hnone] at hj'
    split at hj'
    · cases hj'
    · change u'.heap.field _ m = none
      rw [hdata]
      exact hE.gone j m hj'

theorem entries_trans {d d' : Trace} {e : Option DllistEvent} (hI : Inv maxNodes d)
    (hE : Entries d) (h : Trans maxNodes d.state d'.state e) (hlog : d'.log = d.log ++ e.toList) :
    Entries d' := by
  obtain ⟨s, log⟩ := d
  obtain ⟨t, log'⟩ := d'
  dsimp only at h hlog
  subst hlog
  have hlight : ∀ {pc : DllistPc}, pc.light → pc.leaves? = none := by
    intro pc hpc
    cases pc with
    | forget | unlink => cases hpc
    | _ => rfl
  cases h with
  | stay =>
    rw [Option.toList_none, List.append_nil]
    exact hE
  | @move i pc pc' e hi hpc hpc' he =>
    exact entries_goto hE hi ((hlight hpc').trans (hlight hpc).symm) rfl rfl (live_quiet he)
  | @link i x pc u hi hpc hd hm hroom hu => exact entries_link hI hE hi hpc hu
  | @clear i x n heap hi hw =>
    rw [Option.toList_none, List.append_nil]
    exact entries_clear hE hi hw
  | @unlink i n pc' u hi hm hu hpc' => exact entries_unlink hI hE hi hu hpc'
  | @found i x n hi | @forget i x n hi | @pass i n hi | @lock i hi | @finish i idx hi =>
    exact entries_goto hE hi rfl rfl rfl (live_quiet rfl)
  | @wake i j n x hi hj =>
    have hj' : Entries ⟨s.goto j (.woken x), log ++ (none : Option DllistEvent).toList⟩ :=
      entries_goto hE hj rfl rfl rfl (live_quiet rfl)
    rw [Option.toList_none, List.append_nil] at hj'
    have hne : i ≠ j := by
      rintro rfl
      cases hi.symm.trans hj
    have hi' : (s.goto j (.woken x)).threads[i]? = some (.signal n) := by
      rw [get_goto, if_neg hne, hi]
    exact entries_goto hj' hi' rfl rfl rfl (live_quiet rfl)
  | @free i n heap hi hf =>
    obtain ⟨-, hget, -⟩ := Heap.free_some hf
    have hnl : n ∉ live log := (hI.threads i _ hi).2
    refine entries_same hE (live_quiet rfl) (List.prefix_append _ _) (fun m => ?_)
      (leaving_same hi rfl rfl)
    by_cases hm : m = n
    · subst hm
      refine Or.inr ⟨?_, ?_⟩
      · rw [Option.toList_none, List.append_nil]
        exact hnl
      · change (heap.get m).bind _ = none
        rw [hget, Function.update_self]
        rfl
    · refine Or.inl ?_
      change (heap.get m).bind _ = (s.heap.get m).bind _
      rw [hget, Function.update_of_ne hm]
  | @next i idx n k hi | @stop i idx n k hi =>
    exact entries_goto hE hi rfl rfl rfl (live_handled idx k.data)

/-! ## Handlers -/

/-- What a handler is called with, at a node of the list. -/
theorem handled_iff {d : Trace} {i idx n : ℕ} {k : PthreadNode} (hI : Inv maxNodes d)
    (hE : Entries d) (hi : d.state.threads[i]? = some (.visiting idx (some n)))
    (hk : d.state.heap.get n = some k) :
    (∃ y node, k.data = some y ∧ .linked y node ∈ d.log ∧ .unlinked node ∉ d.log) ↔
      ∀ j, ¬ d.state.Leaving j n := by
  have hn : n ∈ live d.log := (hI.threads i _ hi).2 n rfl
  have hfield : d.state.heap.field PthreadNode.data n = k.data := Heap.field_of_get hk
  obtain ⟨x, hx, hdata⟩ := hE.data n hn
  rw [hfield] at hdata
  constructor
  · rintro ⟨y, node, hy, -⟩ j hj
    have hgone := hE.gone j n hj
    rw [hfield, hy] at hgone
    cases hgone
  · intro hleave
    refine ⟨x, n, hdata.resolve_right fun ⟨j, hj⟩ => hleave j hj, hx, (mem_live.1 hn).2⟩

/-- **A step keeps the sight of the visitors iff it is not blind.** -/
theorem sees_step {d d' : Trace} {a : DllistAct} (hI : Inv maxNodes d) (hE : Entries d)
    (hS : Sees d.log) (h : Runs.Logged.step (step maxNodes) event d a = some d') :
    Sees d'.log ↔ ¬ d.state.Blind a := by
  obtain ⟨hs, hlog⟩ := Runs.Logged.step_eq_some.1 h
  rw [hlog]
  by_cases hv : ∃ i ok idx n, a = .go i ok ∧
      d.state.threads[i]? = some (.visiting idx (some n))
  · obtain ⟨i, ok, idx, n, rfl, hi⟩ := hv
    obtain ⟨k, hk⟩ : ∃ k, d.state.heap.get n = some k := by
      rw [step, hi] at hs
      obtain ⟨k, hk, -⟩ := Option.map_eq_some_iff.1 hs
      exact ⟨k, hk⟩
    have hev : event d.state (.go i ok) d'.state = some (.handled idx k.data) := by
      simp only [event, hi]
      rw [Heap.field_of_get hk]
    have hblind : ¬ d.state.Blind (.go i ok) ↔ ∀ j, ¬ d.state.Leaving j n := by
      constructor
      · intro hb j hj
        exact hb ⟨i, ok, idx, n, rfl, hi, j, hj⟩
      · rintro hl ⟨i', ok', idx', n', he, hi', j, hj⟩
        cases he
        obtain ⟨-, hn⟩ : idx = idx' ∧ n = n' := by simpa using hi.symm.trans hi'
        exact hl j (hn ▸ hj)
    rw [hev, Option.toList_some, sees_snoc, and_iff_right hS, hblind, ← handled_iff hI hE hi hk]
    constructor
    · intro hall
      exact hall idx k.data rfl
    · rintro hex idx' x' he
      cases he
      exact hex
  · have hev : ∀ idx x, event d.state a d'.state ≠ some (.handled idx x) := by
      intro idx x he
      obtain ⟨i, ok, pc, ha, hi, hcase⟩ := event_cases he
      rcases hcase with ⟨y, -, hy | ⟨hy, -⟩⟩ | ⟨n, -, hy⟩ | ⟨idx', n, rfl, -⟩
      · cases hy
      · cases hy
      · cases hy
      · exact hv ⟨i, ok, idx', n, ha, hi⟩
    rw [sees_other hev]
    refine iff_of_true hS ?_
    rintro ⟨i, ok, idx, n, ha, hi, -⟩
    exact hv ⟨i, ok, idx, n, ha, hi⟩

/-- **Visitors see only live entries.**  In all states of a run the handlers have been called
    with the data of entries that had been appended and not unlinked, iff no visitor has come
    to a node whose delete had cleared its data and not unlinked it. -/
theorem sees_iff {n : ℕ} {p : List (Trace × DllistAct)} {d : Trace}
    (h : Runs.Path (Runs.Logged.step (step maxNodes) event) (Runs.Logged.start (init n)) p d) :
    (∀ d' ∈ Runs.visited p d, Sees d'.log) ↔ ∀ x ∈ p, ¬ x.1.state.Blind x.2 := by
  have hreach : ∀ {d : Trace},
      Runs.Reach (Runs.Logged.step (step maxNodes) event) (Runs.Logged.start (init n)) d →
      Inv maxNodes d ∧ Entries d := by
    intro d hd
    refine hd.inv (I := fun d => Inv maxNodes d ∧ Entries d) ⟨inv_init n, ?_⟩ fun d a d' hd ha => ?_
    · refine ⟨fun m hm => (by cases hm), fun i m hi => ?_⟩
      obtain ⟨pc, hpc, hm⟩ := Option.bind_eq_some_iff.1 hi
      obtain rfl := List.eq_of_mem_replicate (List.mem_of_getElem? hpc)
      cases hm
    · obtain ⟨hs, hlog⟩ := Runs.Logged.step_eq_some.1 ha
      exact ⟨inv_trans hd.1 (trans_of_step hs) hlog, entries_trans hd.1 hd.2 (trans_of_step hs) hlog⟩
  refine h.visited_iff (J := fun d => Sees d.log) (G := fun d => Sees d.log)
    (C := fun d a => ¬ d.state.Blind a) ?_ (fun _ _ hS => hS) ?_ ?_
  · intro l₁ idx x l₂ hl
    cases l₁ <;> cases hl
  · intro d a d' hr hS hC ha
    exact (sees_step (hreach hr).1 (hreach hr).2 hS ha).2 hC
  · intro d a d' hr hS hC ha hS'
    exact hC ((sees_step (hreach hr).1 (hreach hr).2 hS ha).1 hS')

end

/-- A client is appended and starts to leave; a visitor comes to it before it is unlinked. -/
def leavingRun : List DllistAct :=
  [.append 0 7, .go 0 true, .delete 0 (some 7), .go 0 true, .go 0 true, .visit 1, .go 1 true,
    .go 1 true]

/-- Two clients are appended; one of them leaves when a visitor is past it, and is
    gone before the next visit. -/
def visitRun : List DllistAct :=
  [.append 0 7, .go 0 true, .append 0 8, .go 0 true, .visit 1, .go 1 true, .go 1 true, .delete 0 (some 7),
    .go 0 true, .go 0 true, .go 0 true, .go 1 true, .go 1 true, .go 0 true, .visit 1, .go 1 true, .go 1 true]

theorem sees_iff_visit : ∃ d : Trace, Sees d.log ∧ d.log = [.linked 7 0, .linked 8 1, .handled 0 (some 7),
    .handled 1 (some 8), .unlinked 0, .handled 0 (some 8)] := by
  obtain ⟨d, hd⟩ : ∃ d, Runs.exec (Runs.Logged.step (step 2) event) (Runs.Logged.start (init 2))
      visitRun = some d := ⟨_, rfl⟩
  refine ⟨d, (sees_iff (Runs.Path.trace hd)).2 ?_ d (Runs.mem_visited_self _ d), ?_⟩
  · -- nobody leaves the node of a visitor in any state of the run
    have hnone : ∀ x ∈ Runs.trace (Runs.Logged.step (step 2) event) (Runs.Logged.start (init 2)) visitRun,
        ∀ v ∈ x.1.state.threads, ∀ pc ∈ x.1.state.threads, v.visits? ≠ none → pc.leaves? ≠ v.visits? := by
      decide +kernel
    rintro x hx ⟨i, ok, idx, node, -, hi, j, hj⟩
    obtain ⟨pc, hpc, hleaves⟩ := Option.bind_eq_some_iff.1 hj
    exact hnone x hx _ (List.mem_of_getElem? hi) pc (List.mem_of_getElem? hpc)
      (Option.some_ne_none node) hleaves
  · obtain rfl := (Option.some.inj hd).symm
    rfl

/-- The handler is called with NULL. -/
theorem handler_null : ∃ p d, Runs.Path (Runs.Logged.step (step 2) event)
    (Runs.Logged.start (init 2)) p d ∧ d.log = [.linked 7 0, .handled 0 none] ∧ ¬ Sees d.log := by
  obtain ⟨d, hd⟩ : ∃ d, Runs.exec (Runs.Logged.step (step 2) event) (Runs.Logged.start (init 2))
      leavingRun = some d := ⟨_, rfl⟩
  have hlog : d.log = [.linked 7 0, .handled 0 none] := by
    obtain rfl := (Option.some.inj hd).symm
    rfl
  refine ⟨_, d, Runs.Path.trace hd, hlog, fun hS => ?_⟩
  obtain ⟨y, node, hy, -⟩ := hS [.linked 7 0] 0 none [] hlog
  cases hy

end PthreadDllist

end SmtpProxy
