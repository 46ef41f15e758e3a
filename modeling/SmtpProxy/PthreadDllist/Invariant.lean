/-
  The bounded table of the clients.

  The log of a run says which appends have linked a node and which deletes have
  unlinked theirs; `live` are the nodes of the first without those of the second.

  * `Inv`: the table is the list `live` of the log, and what the threads rely on
    (`Claim`): a visitor has the lock and stands at a node of the list, a
    delete that has unlinked its node has it alone;
  * `inv_of_reach`: it holds in all states of all runs;
  * `InCall`: a thread is in an append, and none of its steps there has changed
    the table or the pointer of its data;
  * `table_bounded`.
-/
import SmtpProxy.PthreadDllist.Trans

namespace SmtpProxy

open DList

/-- The node that an event links. -/
def DllistEvent.linked? : DllistEvent → Option ℕ
  | .linked _ node => some node
  | _ => none

namespace PthreadDllist

/-- The nodes of the appends, in their order, that no delete has unlinked. -/
def live (log : List DllistEvent) : List ℕ :=
  (log.filterMap DllistEvent.linked?).filter fun n => .unlinked n ∉ log

/-- A state with what has been seen so far. -/
abbrev Trace := Runs.Logged PthreadDllist DllistEvent

/-- What a thread relies on when the nodes of the list are `l`. -/
def Claim (s : PthreadDllist) (l : List ℕ) (i : ℕ) : DllistPc → Prop
  | .clear _ node | .forget _ node | .unlink node => node < s.heap.fresh
  | .signal node | .free node => node < s.heap.fresh ∧ node ∉ l
  | .visiting _ node => s.mtx = some i ∧ ∀ n, node = some n → n ∈ l
  | _ => True

structure Inv (maxNodes : ℕ) (d : Trace) : Prop where
  shape : d.state.Shape (live d.log)
  bound : maxNodes ≠ 0 → d.state.count ≤ maxNodes
  seen : ∀ n, .unlinked n ∈ d.log → n < d.state.heap.fresh
  node : ∀ x n, d.state.node x = some n → n < d.state.heap.fresh
  threads : ∀ i pc, d.state.threads[i]? = some pc → d.state.Claim (live d.log) i pc

section
variable {maxNodes : ℕ} {s t : PthreadDllist} {l l' : List ℕ} {log : List DllistEvent}

/-! ## The log -/

theorem live_quiet {e : Option DllistEvent} (he : DllistEvent.quiet e) :
    live (log ++ e.toList) = live log := by
  rcases e with _ | e
  · simp
  · cases e with
    | rejected i x => simp [live, DllistEvent.linked?]
    | _ => cases he

theorem live_handled (idx : ℕ) (x : Option ℕ) : live (log ++ [.handled idx x]) = live log := by
  simp [live, DllistEvent.linked?]

theorem live_linked {x n : ℕ} (hn : .unlinked n ∉ log) :
    live (log ++ [.linked x n]) = live log ++ [n] := by
  simp [live, DllistEvent.linked?, hn]

theorem live_unlinked {n : ℕ} (hnd : (live log).Nodup) :
    live (log ++ [.unlinked n]) = (live log).erase n := by
  rw [hnd.erase_eq_filter]
  simp only [live, List.filterMap_append, List.filterMap_cons, DllistEvent.linked?,
    List.filterMap_nil, List.append_nil, List.filter_filter]
  refine List.filter_congr fun m _ => ?_
  by_cases hm : m = n
  · simp [hm]
  · simp [hm]

/-! ## Frames -/

/-- The list keeps its shape when the links of its nodes stay as they are. -/
theorem Shape.congr (h : s.Shape l) (hhead : t.head = s.head) (htail : t.tail = s.tail)
    (hcount : t.count = s.count) (halive : ∀ n ∈ l, t.heap.get n ≠ none)
    (hnext : ∀ n ∈ l, t.next n = s.next n)
    (hprev : ∀ n, t.prev n = s.prev n ∨ n ∉ l ∧ t.prev n = none) : t.Shape l where
  chain := by
    rw [hhead, htail]
    exact h.chain.congr hnext fun n hn => (hprev n).resolve_right fun hno => hno.1 hn
  count := hcount.trans h.count
  alive := halive
  loose n hn := by
    rcases hprev n with he | ⟨-, he⟩
    · rw [he, h.loose n hn]
    · exact he

/-- A change of locks, threads and data pointers. -/
theorem Shape.same (h : s.Shape l) (hhead : t.head = s.head) (htail : t.tail = s.tail)
    (hcount : t.count = s.count) (hheap : t.heap = s.heap) : t.Shape l := by
  refine h.congr hhead htail hcount (fun n hn => ?_) (fun n _ => ?_) fun n => Or.inl ?_
  · rw [hheap]
    exact h.alive n hn
  · rw [next, next, hheap]
  · rw [prev, prev, hheap]

theorem Claim.mono {i : ℕ} {pc : DllistPc} (h : s.Claim l i pc) (hf : s.heap.fresh ≤ t.heap.fresh)
    (hl : ∀ n < s.heap.fresh, n ∈ l' → n ∈ l)
    (hv : s.mtx = some i → t.mtx = some i ∧ ∀ n ∈ l, n ∈ l') : t.Claim l' i pc := by
  cases pc with
  | clear x n | forget x n | unlink n => exact Nat.lt_of_lt_of_le h hf
  | signal n | free n => exact ⟨Nat.lt_of_lt_of_le h.1 hf, fun hn => h.2 (hl n h.1 hn)⟩
  | visiting idx p =>
    obtain ⟨hm, hp⟩ := hv h.1
    exact ⟨hm, fun n hn => hp n (h.2 n hn)⟩
  | _ => trivial

/-- The thread `i` goes on, and the others keep what they rely on. -/
theorem claims_goto {i : ℕ} {pc' : DllistPc}
    (hI : ∀ j pc, s.threads[j]? = some pc → s.Claim l j pc) (ht : t.threads = s.threads)
    (hf : s.heap.fresh ≤ t.heap.fresh) (hl : ∀ n < s.heap.fresh, n ∈ l' → n ∈ l)
    (hv : ∀ j, j ≠ i → s.mtx = some j → t.mtx = some j ∧ ∀ n ∈ l, n ∈ l')
    (hpc' : t.Claim l' i pc') (j : ℕ) (pc : DllistPc)
    (hj : (t.goto i pc').threads[j]? = some pc) : (t.goto i pc').Claim l' j pc := by
  rw [get_goto] at hj
  split at hj
  · rename_i hji
    subst hji
    obtain ⟨-, -, rfl⟩ := Option.map_eq_some_iff.1 hj
    exact hpc'
  · rename_i hji
    rw [ht] at hj
    exact (hI j pc hj).mono hf hl (hv j hji)

theorem claim_light {i : ℕ} {pc : DllistPc} (h : pc.light) : s.Claim l i pc := by
  cases pc with
  | out | append | wait | woken | expired | delete | visit | stopped => trivial
  | _ => cases h

/-! ## The steps -/

/-- What is seen, and what is kept, when the list stays as it is. -/
theorem inv_same {d d' : Trace} {e : Option DllistEvent} (hI : Inv maxNodes d)
    (hlog : d'.log = d.log ++ e.toList) (hlive : live (d.log ++ e.toList) = live d.log)
    (hseen : ∀ n, e ≠ some (.unlinked n)) (hshape : d'.state.Shape (live d.log))
    (hfresh : d'.state.heap.fresh = d.state.heap.fresh)
    (hnode : ∀ x n, d'.state.node x = some n → d.state.node x = some n)
    (hthreads : ∀ i pc, d'.state.threads[i]? = some pc → d'.state.Claim (live d.log) i pc) :
    Inv maxNodes d' where
  shape := by rw [hlog, hlive]; exact hshape
  bound h := by
    rw [hshape.count, ← hI.shape.count]
    exact hI.bound h
  seen n hn := by
    rw [hlog, List.mem_append] at hn
    rw [hfresh]
    rcases hn with hn | hn
    · exact hI.seen n hn
    · exact absurd (Option.mem_toList.1 hn) (hseen n)
  node x n hn := by
    rw [hfresh]
    exact hI.node x n (hnode x n hn)
  threads := by rw [hlog, hlive]; exact hthreads

theorem quiet_ne_unlinked {e : Option DllistEvent} (he : DllistEvent.quiet e) (n : ℕ) :
    e ≠ some (.unlinked n) := by
  rintro rfl
  cases he

/-- A thread goes on, and the rest stays as it is. -/
theorem inv_goto {i : ℕ} {pc' : DllistPc} {e : Option DllistEvent} (hI : Inv maxNodes ⟨s, log⟩)
    (hlive : live (log ++ e.toList) = live log) (hseen : ∀ n, e ≠ some (.unlinked n))
    (hpc' : s.Claim (live log) i pc') : Inv maxNodes ⟨s.goto i pc', log ++ e.toList⟩ :=
  inv_same hI rfl hlive hseen (hI.shape.same rfl rfl rfl rfl) rfl (fun _ _ hn => hn)
    (claims_goto hI.threads rfl (Nat.le_refl _) (fun _ _ hn => hn)
      (fun _ _ hm => ⟨hm, fun _ hn => hn⟩) hpc')

theorem inv_link {i x : ℕ} {u : PthreadDllist} (hI : Inv maxNodes ⟨s, log⟩) (hm : s.mtx = none)
    (hroom : maxNodes = 0 ∨ s.count ≠ maxNodes) (hu : s.linkNode x = some u) :
    Inv maxNodes ⟨u.goto i .out, log ++ [.linked x s.heap.fresh]⟩ := by
  obtain ⟨u', hu', hshape, hadd⟩ := linkNode_shape hI.shape x
  obtain rfl : u' = u := Option.some.inj (hu'.symm.trans hu)
  have hnew : .unlinked s.heap.fresh ∉ log := fun hn => Nat.lt_irrefl _ (hI.seen _ hn)
  have hfresh : u'.heap.fresh = s.heap.fresh + 1 := hadd.fresh
  refine ⟨?_, fun h0 => ?_, fun n hn => ?_, fun y n hn => ?_, ?_⟩
  · rw [live_linked hnew]
    exact hshape.same rfl rfl rfl rfl
  · have hcount : u'.count = s.count + 1 := by
      have hlen := hshape.count
      have hlen' := hI.shape.count
      rw [List.length_append, List.length_singleton] at hlen
      push_cast at hlen
      rw [hlen, hlen']
    have hbound : s.count ≤ maxNodes := hI.bound h0
    have hne := hroom.resolve_left h0
    change u'.count ≤ maxNodes
    omega
  · rw [List.mem_append, List.mem_singleton] at hn
    change n < u'.heap.fresh
    rcases hn with hn | hn
    · have hlt : n < s.heap.fresh := hI.seen n hn
      omega
    · cases hn
  · change n < u'.heap.fresh
    change u'.node y = some n at hn
    rw [hadd.node] at hn
    by_cases hy : y = x
    · subst hy
      rw [Function.update_self] at hn
      have he : s.heap.fresh = n := Option.some.inj hn
      omega
    · rw [Function.update_of_ne hy] at hn
      have hlt : n < s.heap.fresh := hI.node y n hn
      omega
  · rw [live_linked hnew]
    have hle : s.heap.fresh ≤ u'.heap.fresh := by omega
    refine claims_goto hI.threads hadd.threads hle (fun n hn hmem => ?_)
      (fun j _ hj => ?_) trivial
    · rcases List.mem_append.1 hmem with hmem | hmem
      · exact hmem
      · rw [List.mem_singleton.1 hmem] at hn
        exact absurd hn (Nat.lt_irrefl _)
    · rw [hm] at hj
      cases hj

theorem inv_unlink {i n : ℕ} {pc' : DllistPc} {u : PthreadDllist} (hI : Inv maxNodes ⟨s, log⟩)
    (hi : s.threads[i]? = some (.unlink n)) (hm : s.mtx = none) (hu : s.unlinkNode n = some u)
    (hpc' : pc' = .signal n ∨ pc' = .free n) :
    Inv maxNodes ⟨u.goto i pc', log ++ [.unlinked n]⟩ := by
  have hn : n ∈ live log := by
    by_contra hno
    rw [unlinkNode_none hI.shape hno] at hu
    cases hu
  obtain ⟨u', hu', hshape, hkeep⟩ := unlinkNode_shape hI.shape hn
  obtain rfl : u' = u := Option.some.inj (hu'.symm.trans hu)
  have hnd : (live log).Nodup := hI.shape.chain.nodup
  have hlt : n < s.heap.fresh := hI.threads i _ hi
  have hfresh : u'.heap.fresh = s.heap.fresh := hkeep.fresh
  refine ⟨?_, fun h0 => ?_, fun m hmem => ?_, fun y m hy => ?_, ?_⟩
  · rw [live_unlinked hnd]
    exact hshape.same rfl rfl rfl rfl
  · have hlen := hshape.count
    have hlen' := hI.shape.count
    have hbound : s.count ≤ maxNodes := hI.bound h0
    rw [List.length_erase_of_mem hn] at hlen
    change u'.count ≤ maxNodes
    dsimp only at hlen'
    omega
  · rw [List.mem_append, List.mem_singleton] at hmem
    change m < u'.heap.fresh
    rw [hfresh]
    rcases hmem with hmem | hmem
    · exact hI.seen m hmem
    · obtain rfl : m = n := by simpa using hmem
      exact hlt
  · change m < u'.heap.fresh
    change u'.node y = some m at hy
    rw [hkeep.node] at hy
    rw [hfresh]
    exact hI.node y m hy
  · rw [live_unlinked hnd]
    refine claims_goto hI.threads hkeep.threads (Nat.le_of_eq hfresh.symm)
      (fun m _ hmem => List.mem_of_mem_erase hmem) (fun j _ hj => ?_) ?_
    · rw [hm] at hj
      cases hj
    · have hgone : n < u'.heap.fresh ∧ n ∉ (live log).erase n :=
        ⟨hfresh ▸ hlt, hnd.not_mem_erase⟩
      rcases hpc' with rfl | rfl <;> exact hgone

theorem inv_clear {i x n : ℕ} {heap : Heap PthreadNode} (hI : Inv maxNodes ⟨s, log⟩)
    (hi : s.threads[i]? = some (.clear x n))
    (hw : (s.heap.write n fun k => { k with data := none }) = some heap) :
    Inv maxNodes ⟨{ s with heap := heap }.goto i (.forget x n), log⟩ := by
  obtain ⟨-, -, -, hfresh⟩ := Heap.write_some hw
  have hn : n < s.heap.fresh := hI.threads i _ hi
  refine inv_same (e := none) hI (List.append_nil _).symm (live_quiet rfl) (quiet_ne_unlinked rfl) ?_
    hfresh (fun _ _ hn => hn) ?_
  · refine hI.shape.congr rfl rfl rfl (fun m hm => ?_)
      (fun m _ => Heap.field_write_same hw (fun _ => rfl) m)
      fun m => Or.inl (Heap.field_write_same hw (fun _ => rfl) m)
    exact mt (Heap.write_eq_none_iff hw m).1 (hI.shape.alive m hm)
  · exact claims_goto hI.threads rfl (Nat.le_of_eq hfresh.symm) (fun _ _ hn => hn)
      (fun _ _ hm => ⟨hm, fun _ hn => hn⟩) (Nat.lt_of_lt_of_le hn (Nat.le_of_eq hfresh.symm))

theorem inv_forget {i x n : ℕ} (hI : Inv maxNodes ⟨s, log⟩)
    (hi : s.threads[i]? = some (.forget x n)) :
    Inv maxNodes ⟨{ s with node := Function.update s.node x none }.goto i (.unlink n), log⟩ := by
  refine inv_same (e := none) hI (List.append_nil _).symm (live_quiet rfl) (quiet_ne_unlinked rfl)
    (hI.shape.same rfl rfl rfl rfl) rfl (fun y m hm => ?_)
    (claims_goto hI.threads rfl (Nat.le_refl _) (fun _ _ hn => hn)
      (fun _ _ hm => ⟨hm, fun _ hn => hn⟩) (hI.threads i _ hi))
  change Function.update s.node x none y = some m at hm
  by_cases hy : y = x
  · subst hy
    rw [Function.update_self] at hm
    cases hm
  · rwa [Function.update_of_ne hy] at hm

theorem inv_free {i n : ℕ} {heap : Heap PthreadNode} (hI : Inv maxNodes ⟨s, log⟩)
    (hi : s.threads[i]? = some (.free n)) (hf : s.heap.free n = some heap) :
    Inv maxNodes ⟨{ s with heap := heap }.goto i .out, log⟩ := by
  obtain ⟨-, hget, hfresh⟩ := Heap.free_some hf
  have hnl : n ∉ live log := (hI.threads i _ hi).2
  have hother : ∀ m, m ≠ n → heap.get m = s.heap.get m := fun m hm => by
    rw [hget, Function.update_of_ne hm]
  refine inv_same (e := none) hI (List.append_nil _).symm (live_quiet rfl) (quiet_ne_unlinked rfl) ?_
    hfresh (fun _ _ hn => hn) ?_
  · refine hI.shape.congr rfl rfl rfl (fun m hm => ?_) (fun m hm => ?_) fun m => ?_
    · change heap.get m ≠ none
      rw [hother m (ne_of_mem_of_not_mem hm hnl)]
      exact hI.shape.alive m hm
    · change (heap.get m).bind _ = (s.heap.get m).bind _
      rw [hother m (ne_of_mem_of_not_mem hm hnl)]
    · by_cases hm : m = n
      · subst hm
        refine Or.inr ⟨hnl, ?_⟩
        change (heap.get m).bind _ = none
        rw [hget, Function.update_self]
        rfl
      · refine Or.inl ?_
        change (heap.get m).bind _ = (s.heap.get m).bind _
        rw [hother m hm]
  · exact claims_goto hI.threads rfl (Nat.le_of_eq hfresh.symm) (fun _ _ hn => hn)
      (fun _ _ hm => ⟨hm, fun _ hn => hn⟩) trivial

theorem inv_lock {i : ℕ} (hI : Inv maxNodes ⟨s, log⟩) (hm : s.mtx = none) :
    Inv maxNodes ⟨{ s with mtx := some i }.goto i (.visiting 0 s.head), log⟩ := by
  refine inv_same (e := none) hI (List.append_nil _).symm (live_quiet rfl) (quiet_ne_unlinked rfl)
    (hI.shape.same rfl rfl rfl rfl) rfl (fun _ _ hn => hn)
    (claims_goto hI.threads rfl (Nat.le_refl _) (fun _ _ hn => hn) (fun j _ hj => ?_) ?_)
  · rw [hm] at hj
    cases hj
  · refine ⟨rfl, fun n hn => ?_⟩
    rw [hI.shape.chain.head_eq] at hn
    exact List.mem_of_mem_head? hn

theorem inv_next {i idx n : ℕ} {k : PthreadNode} (hI : Inv maxNodes ⟨s, log⟩)
    (hi : s.threads[i]? = some (.visiting idx (some n))) (hk : s.heap.get n = some k) :
    Inv maxNodes ⟨s.goto i (.visiting (idx + 1) k.next), log ++ [.handled idx k.data]⟩ := by
  have hv := hI.threads i _ hi
  refine inv_goto (e := some (.handled idx k.data)) hI (live_handled idx k.data) (by simp)
    ⟨hv.1, fun m hm => ?_⟩
  -- the node after one of the list is in the list
  obtain ⟨l₁, l₂, hl⟩ := List.append_of_mem (hv.2 n rfl)
  have hchain := hI.shape.chain
  dsimp only at hl
  rw [hl] at hchain ⊢
  have hnext : s.next n = some m := (Heap.field_of_get hk).trans hm
  rw [hchain.next_eq] at hnext
  simp [List.mem_of_mem_head? hnext]

/-- A visitor leaves with the lock. -/
theorem inv_leave {i idx : ℕ} {node : Option ℕ} {pc' : DllistPc} {e : Option DllistEvent}
    (hI : Inv maxNodes ⟨s, log⟩) (hi : s.threads[i]? = some (.visiting idx node))
    (hlive : live (log ++ e.toList) = live log) (hseen : ∀ n, e ≠ some (.unlinked n))
    (hpc' : pc'.light) : Inv maxNodes ⟨{ s with mtx := none }.goto i pc', log ++ e.toList⟩ := by
  refine inv_same hI rfl hlive hseen (hI.shape.same rfl rfl rfl rfl) rfl (fun _ _ hn => hn)
    (claims_goto hI.threads rfl (Nat.le_refl _) (fun _ _ hn => hn) (fun j hji hj => ?_)
      (claim_light hpc'))
  have hv := (hI.threads i _ hi).1
  rw [hv] at hj
  exact absurd (Option.some.inj hj).symm hji

theorem inv_trans {d d' : Trace} {e : Option DllistEvent} (hI : Inv maxNodes d)
    (h : Trans maxNodes d.state d'.state e) (hlog : d'.log = d.log ++ e.toList) :
    Inv maxNodes d' := by
  obtain ⟨s, log⟩ := d
  obtain ⟨t, log'⟩ := d'
  dsimp only at h hlog
  subst hlog
  cases h with
  | stay =>
    rw [Option.toList_none, List.append_nil]
    exact hI
  | @move i pc pc' e hi hpc hpc' he =>
    exact inv_goto hI (live_quiet he) (quiet_ne_unlinked he) (claim_light hpc')
  | @found i x n hi hn => exact inv_goto hI (live_quiet rfl) (quiet_ne_unlinked rfl) (hI.node x n hn)
  | @link i x pc u hi hpc hd hm hroom hu => exact inv_link hI hm hroom hu
  | @clear i x n heap hi hw =>
    rw [Option.toList_none, List.append_nil]
    exact inv_clear hI hi hw
  | @forget i x n hi =>
    rw [Option.toList_none, List.append_nil]
    exact inv_forget hI hi
  | @unlink i n pc' u hi hm hu hpc' => exact inv_unlink hI hi hm hu hpc'
  | @pass i n hi =>
    have hn : s.Claim (live log) i (.signal n) := hI.threads i _ hi
    exact inv_goto hI (live_quiet rfl) (quiet_ne_unlinked rfl) hn
  | @wake i j n x hi hj =>
    have hj' : Inv maxNodes ⟨s.goto j (.woken x), log ++ (none : Option DllistEvent).toList⟩ :=
      inv_goto hI (live_quiet rfl) (quiet_ne_unlinked rfl) trivial
    rw [Option.toList_none, List.append_nil] at hj'
    have hn : s.Claim (live log) i (.signal n) := hI.threads i _ hi
    exact inv_goto hj' (live_quiet rfl) (quiet_ne_unlinked rfl) hn
  | @free i n heap hi hf =>
    rw [Option.toList_none, List.append_nil]
    exact inv_free hI hi hf
  | @lock i hi hm =>
    rw [Option.toList_none, List.append_nil]
    exact inv_lock hI hm
  | @next i idx n k hi hk => exact inv_next hI hi hk
  | @stop i idx n k hi hk => exact inv_leave hI hi (live_handled idx k.data) (by simp) rfl
  | @finish i idx hi => exact inv_leave hI hi (live_quiet rfl) (quiet_ne_unlinked rfl) rfl

/-! ## Runs -/

theorem inv_init (n : ℕ) : Inv maxNodes (Runs.Logged.start (init n)) where
  shape := ⟨.nil, rfl, (fun m hm => by cases hm), fun _ _ => rfl⟩
  bound _ := Int.natCast_nonneg maxNodes
  seen m hm := by cases hm
  node x m hm := by cases hm
  threads i pc hi := by
    obtain rfl := List.eq_of_mem_replicate (List.mem_of_getElem? hi)
    trivial

theorem inv_of_reach {n : ℕ} {d : Trace}
    (h : Runs.Reach (Runs.Logged.step (step maxNodes) event) (Runs.Logged.start (init n)) d) :
    Inv maxNodes d := by
  refine h.inv (I := Inv maxNodes) (inv_init n) fun d a d' hI ha => ?_
  obtain ⟨hs, hlog⟩ := Runs.Logged.step_eq_some.1 ha
  exact inv_trans hI (trans_of_step hs) hlog

end

/-! ## Appends that return 0 -/

/-- The table and the pointers of the data are the same. -/
structure Same (s t : PthreadDllist) : Prop where
  head : t.head = s.head
  tail : t.tail = s.tail
  count : t.count = s.count
  heap : t.heap = s.heap
  node : t.node = s.node

/-- At the end of the run `p` the thread `i` is in a call of `pthread_dllistAppend` with
    `data`, and no step it has taken in the call has changed the table or a pointer. -/
def InCall (maxNodes i data : ℕ) (p : List (Trace × DllistAct)) : Prop :=
  ∃ p₁ d₀ p₂, p = p₁ ++ (d₀, .append i data) :: p₂ ∧ ∀ x ∈ p₂,
    x.1.state.threads[i]?.bind DllistPc.appending? = some data ∧
    (x.2.thread = i → ∀ t, step maxNodes x.1.state x.2 = some t → x.1.state.Same t)

section
variable {maxNodes : ℕ} {s t : PthreadDllist} {a : DllistAct}

theorem same_goto (s : PthreadDllist) (i : ℕ) (pc : DllistPc) : s.Same (s.goto i pc) :=
  ⟨rfl, rfl, rfl, rfl, rfl⟩

/-- An append that does not return 1 leaves everything as it is. -/
theorem same_of_go {i : ℕ} {ok : Bool} {pc : DllistPc} (hpc : pc.appending? ≠ none)
    (h : s.goStep maxNodes i ok pc = some t) (hf : t.heap.fresh = s.heap.fresh) :
    s.Same t := by
  cases pc with
  | append data | woken data =>
    simp only [goStep] at h
    split at h
    · unfold appendLocked at h
      split at h
      · obtain rfl := Option.some.inj h
        exact same_goto ..
      · split at h
        · obtain rfl := Option.some.inj h
          exact same_goto ..
        · obtain ⟨u, hu, rfl⟩ := Option.map_eq_some_iff.1 h
          have hfresh := (linkNode_frame hu).1
          change u.heap.fresh = s.heap.fresh at hf
          omega
    · cases h
  | expired data =>
    simp only [goStep] at h
    split at h
    · obtain rfl := Option.some.inj h
      exact same_goto ..
    · cases h
  | wait data => cases h
  | _ => exact absurd rfl hpc

/-- Whoever does not go on by itself leaves everything as it is. -/
theorem same_of_not_go (h : step maxNodes s a = some t) (hgo : ∀ i ok, a ≠ .go i ok) :
    s.Same t := by
  cases a with
  | go i ok => exact absurd rfl (hgo i ok)
  | append i x | visit i =>
    simp only [step] at h
    split at h
    · obtain rfl := Option.some.inj h
      exact same_goto ..
    · cases h
  | delete i x =>
    simp only [step] at h
    split at h
    · obtain rfl := Option.some.inj h
      cases x <;> exact ⟨rfl, rfl, rfl, rfl, rfl⟩
    · cases h
  | signal i j =>
    simp only [step] at h
    split at h
    · split at h
      · cases h
      · obtain rfl := Option.some.inj h
        exact same_goto ..
    · split at h
      · obtain rfl := Option.some.inj h
        exact ⟨rfl, rfl, rfl, rfl, rfl⟩
      · cases h
    · cases h
  | timeout i | spurious i =>
    simp only [step] at h
    split at h
    · obtain rfl := Option.some.inj h
      exact same_goto ..
    · cases h

/-- **A thread in an append** has just called it, or was in it before; and a step of
    its own that keeps it there changes nothing. -/
theorem call_of_step {i data : ℕ} (h : step maxNodes s a = some t)
    (hin : t.threads[i]?.bind DllistPc.appending? = some data) :
    a = .append i data ∨
      s.threads[i]?.bind DllistPc.appending? = some data ∧ (a.thread = i → s.Same t) := by
  rcases moved_of_step h i with ⟨hsame, hgo⟩ | ⟨pc, pc', hi, hi', hm⟩
  · rw [hsame] at hin
    refine Or.inr ⟨hin, fun hthread => same_of_not_go h ?_⟩
    rintro j ok rfl
    obtain rfl : j = i := hthread
    exact hgo ok rfl
  · rw [hi'] at hin
    rw [hi]
    cases hm with
    | append => exact Or.inl (by rw [Option.some.inj hin])
    | delete | visit | signal => cases hin
    | woken | timeout | spurious => exact Or.inr ⟨hin, fun _ => same_of_not_go h (by simp)⟩
    | go ht hent =>
      rcases hent.1 with hnone | ⟨x, rfl, hpc, rfl, -⟩
      · rw [Option.bind_some, hnone] at hin
        cases hin
      · refine Or.inr ⟨?_, fun _ => ht ▸ same_goto ..⟩
        rcases hpc with rfl | rfl <;> exact hin

theorem in_call_snoc {d : Trace} {i data : ℕ} {p : List (Trace × DllistAct)}
    (h : InCall maxNodes i data p) (hin : d.state.threads[i]?.bind DllistPc.appending? = some data)
    (hsame : a.thread = i → ∀ t, step maxNodes d.state a = some t → d.state.Same t) :
    InCall maxNodes i data (p ++ [(d, a)]) := by
  obtain ⟨p₁, d₀, p₂, rfl, hp₂⟩ := h
  refine ⟨p₁, d₀, p₂ ++ [(d, a)], by simp, fun x hx => ?_⟩
  rcases List.mem_append.1 hx with hx | hx
  · exact hp₂ x hx
  · obtain rfl := List.mem_singleton.1 hx
    exact ⟨hin, hsame⟩

/-- Whoever is in an append has called it, and changed nothing since. -/
theorem in_call_of_path {n i data : ℕ} {p : List (Trace × DllistAct)} {d : Trace}
    (h : Runs.Path (Runs.Logged.step (step maxNodes) event) (Runs.Logged.start (init n)) p d)
    (hin : d.state.threads[i]?.bind DllistPc.appending? = some data) :
    InCall maxNodes i data p := by
  induction h with
  | nil =>
    obtain ⟨pc, hi, hpc⟩ := Option.bind_eq_some_iff.1 hin
    obtain rfl := List.eq_of_mem_replicate (List.mem_of_getElem? hi)
    cases hpc
  | @snoc p d d' a hp ha ih =>
    obtain ⟨hs, -⟩ := Runs.Logged.step_eq_some.1 ha
    rcases call_of_step hs hin with rfl | ⟨hbefore, hsame⟩
    · exact ⟨p, d, [], rfl, fun x hx => by cases hx⟩
    · refine in_call_snoc (ih hbefore) hbefore fun hi t ht => ?_
      obtain rfl : d'.state = t := Option.some.inj (hs.symm.trans ht)
      exact hsame hi

/-- Who returns 0 from an append was in it, and changes nothing. -/
theorem rejected_eq {i data : ℕ} (h : step maxNodes s a = some t)
    (he : event s a t = some (.rejected i data)) :
    a.thread = i ∧ s.threads[i]?.bind DllistPc.appending? = some data ∧ s.Same t := by
  obtain ⟨j, ok, pc, rfl, hj, hcase⟩ := event_cases he
  obtain ⟨pc', hj', h⟩ := Option.bind_eq_some_iff.1 h
  obtain rfl : pc = pc' := Option.some.inj (hj.symm.trans hj')
  rcases hcase with ⟨x, hx, he | ⟨he, hfresh⟩⟩ | ⟨m, -, he⟩ | ⟨idx, m, -, he⟩
  · cases he
  · cases he
    exact ⟨rfl, by rw [hj]; exact hx, same_of_go (by simp [hx]) h hfresh⟩
  · cases he
  · cases he

/-- **The bounded table of the clients.**  In every state of every run, forward from `head`
    and backward from `tail` stand the nodes that appends have linked and no delete has
    unlinked, in the order of the appends; `count` is their number and at most `maxNodes`;
    and an append that returns 0 has changed neither the table nor the pointer of its data. -/
theorem table_bounded {n : ℕ} (hmax : 1 ≤ maxNodes) {p : List (Trace × DllistAct)} {d : Trace}
    (h : Runs.Path (Runs.Logged.step (step maxNodes) event) (Runs.Logged.start (init n)) p d) :
    Chain d.state.head d.state.tail d.state.next d.state.prev (live d.log) ∧
    d.state.count = (live d.log).length ∧ d.state.count ≤ maxNodes ∧
    ∀ q x r t i data, p = q ++ x :: r → step maxNodes x.1.state x.2 = some t →
      event x.1.state x.2 t = some (.rejected i data) → InCall maxNodes i data (q ++ [x]) := by
  have hI : Inv maxNodes d := inv_of_reach h.reach
  refine ⟨hI.shape.chain, hI.shape.count, hI.bound (by omega), ?_⟩
  intro q x r t i data hp hs he
  have hq := h.before hp
  obtain ⟨-, hin, hsame⟩ := rejected_eq hs he
  refine in_call_snoc (in_call_of_path hq hin) hin fun _ u hu => ?_
  obtain rfl : t = u := Option.some.inj (hs.symm.trans hu)
  exact hsame

end

/-- The first thread appends, the second one finds the list full and times out. -/
def fullRun : List DllistAct :=
  [.append 0 7, .go 0 true, .append 1 8, .go 1 true, .timeout 1, .go 1 true]

theorem table_bounded_full : ∃ d : Trace, live d.log = [0] ∧
    d.log = [.linked 7 0, .rejected 1 8] ∧ d.state.count ≤ 1 ∧
    Chain d.state.head d.state.tail d.state.next d.state.prev [0] := by
  obtain ⟨d, hd⟩ : ∃ d, Runs.exec (Runs.Logged.step (step 1) event) (Runs.Logged.start (init 2))
      fullRun = some d := ⟨_, rfl⟩
  have hlog : d.log = [.linked 7 0, .rejected 1 8] := by
    obtain rfl := (Option.some.inj hd).symm
    rfl
  have hlive : live d.log = [0] := by rw [hlog]; rfl
  obtain ⟨hchain, -, hcount, -⟩ := table_bounded (Nat.le_refl 1) (Runs.Path.trace hd)
  rw [hlive] at hchain
  exact ⟨d, hlive, hlog, hcount, hchain⟩

end PthreadDllist

end SmtpProxy
