/-
  What a step of the threads can do.

  * `Moved`, `moved_of_step`: what it makes of a thread;
  * `event_cases`: where what is seen comes from;
  * `Trans`, `trans_of_step`: what it makes of the list, with the guards it has
    passed and what is seen of it, and nothing else.  Steps that only take a
    thread from one place to another without a claim on the list are taken
    together (`DllistPc.light`).
-/
import SmtpProxy.PthreadDllist.Chain

namespace SmtpProxy

/-- A thread at this place has no node in its hands and does not hold the lock. -/
def DllistPc.light : DllistPc → Bool
  | .out | .append _ | .wait _ | .woken _ | .expired _ | .delete _ | .visit | .stopped _ => true
  | _ => false

/-- An append returns 0, or nothing is seen. -/
def DllistEvent.quiet : Option DllistEvent → Bool
  | none | some (.rejected _ _) => true
  | _ => false

namespace PthreadDllist

/-- What a step can make of the state `s`, and what is seen of it. -/
inductive Trans (maxNodes : ℕ) (s : PthreadDllist) : PthreadDllist → Option DllistEvent → Prop
  | stay : Trans maxNodes s s none
  | move {i : ℕ} {pc pc' : DllistPc} {e : Option DllistEvent} (hi : s.threads[i]? = some pc)
      (hpc : pc.light) (hpc' : pc'.light) (he : DllistEvent.quiet e) :
      Trans maxNodes s (s.goto i pc') e
  | found {i data node : ℕ} (hi : s.threads[i]? = some (.delete data))
      (hn : s.node data = some node) : Trans maxNodes s (s.goto i (.clear data node)) none
  | link {i data : ℕ} {pc : DllistPc} {t : PthreadDllist} (hi : s.threads[i]? = some pc)
      (hpc : pc.light) (hd : pc.appending? = some data) (hm : s.mtx = none)
      (hroom : maxNodes = 0 ∨ s.count ≠ maxNodes) (ht : s.linkNode data = some t) :
      Trans maxNodes s (t.goto i .out) (some (.linked data s.heap.fresh))
  | clear {i data node : ℕ} {heap : Heap PthreadNode}
      (hi : s.threads[i]? = some (.clear data node))
      (hw : (s.heap.write node fun k => { k with data := none }) = some heap) :
      Trans maxNodes s ({ s with heap := heap }.goto i (.forget data node)) none
  | forget {i data node : ℕ} (hi : s.threads[i]? = some (.forget data node)) :
      Trans maxNodes s
        ({ s with node := Function.update s.node data none }.goto i (.unlink node)) none
  | unlink {i node : ℕ} {pc' : DllistPc} {t : PthreadDllist}
      (hi : s.threads[i]? = some (.unlink node)) (hm : s.mtx = none)
      (ht : s.unlinkNode node = some t) (hpc' : pc' = .signal node ∨ pc' = .free node) :
      Trans maxNodes s (t.goto i pc') (some (.unlinked node))
  | pass {i node : ℕ} (hi : s.threads[i]? = some (.signal node)) :
      Trans maxNodes s (s.goto i (.free node)) none
  | wake {i j node data : ℕ} (hi : s.threads[i]? = some (.signal node))
      (hj : s.threads[j]? = some (.wait data)) :
      Trans maxNodes s ((s.goto j (.woken data)).goto i (.free node)) none
  | free {i node : ℕ} {heap : Heap PthreadNode} (hi : s.threads[i]? = some (.free node))
      (hf : s.heap.free node = some heap) :
      Trans maxNodes s ({ s with heap := heap }.goto i .out) none
  | lock {i : ℕ} (hi : s.threads[i]? = some .visit) (hm : s.mtx = none) :
      Trans maxNodes s ({ s with mtx := some i }.goto i (.visiting 0 s.head)) none
  | next {i idx node : ℕ} {k : PthreadNode}
      (hi : s.threads[i]? = some (.visiting idx (some node))) (hk : s.heap.get node = some k) :
      Trans maxNodes s (s.goto i (.visiting (idx + 1) k.next)) (some (.handled idx k.data))
  | stop {i idx node : ℕ} {k : PthreadNode}
      (hi : s.threads[i]? = some (.visiting idx (some node))) (hk : s.heap.get node = some k) :
      Trans maxNodes s ({ s with mtx := none }.goto i (.stopped node)) (some (.handled idx k.data))
  | finish {i idx : ℕ} (hi : s.threads[i]? = some (.visiting idx none)) :
      Trans maxNodes s ({ s with mtx := none }.goto i .out) none

section
variable {maxNodes : ℕ} {s t : PthreadDllist} {a : DllistAct}

theorem get_goto (s : PthreadDllist) (i : ℕ) (pc : DllistPc) (j : ℕ) :
    (s.goto i pc).threads[j]? =
      if j = i then s.threads[i]?.map fun _ => pc else s.threads[j]? := by
  rw [goto, List.getElem?_set]
  by_cases hij : j = i
  · subst hij
    by_cases hlt : j < s.threads.length
    · rw [if_pos rfl, if_pos hlt, if_pos rfl, List.getElem?_eq_getElem hlt]
      rfl
    · rw [if_pos rfl, if_neg hlt, if_pos rfl, List.getElem?_eq_none (Nat.not_lt.1 hlt)]
      rfl
  · rw [if_neg (Ne.symm hij), if_neg hij]

theorem get_goto_self {i : ℕ} {pc pc' : DllistPc} (hi : s.threads[i]? = some pc) :
    (s.goto i pc').threads[i]? = some pc' := by
  rw [get_goto, if_pos rfl, hi]
  rfl

/-- What a place of the threads says. -/
theorem bind_goto {γ : Type*} (f : DllistPc → Option γ) {i : ℕ} {pc pc' : DllistPc}
    (hi : s.threads[i]? = some pc) (ht : t.threads = s.threads) (j : ℕ) :
    (t.goto i pc').threads[j]?.bind f = if j = i then f pc' else s.threads[j]?.bind f := by
  rw [get_goto, ht]
  split
  · rw [hi]
    rfl
  · rfl

/-- An append that links a node has the next one. -/
theorem linkNode_frame {data : ℕ} (h : s.linkNode data = some t) :
    t.heap.fresh = s.heap.fresh + 1 ∧ t.threads = s.threads ∧ t.count = s.count + 1 := by
  unfold linkNode at h
  dsimp only at h
  split at h
  · obtain ⟨heap, hw, rfl⟩ := Option.map_eq_some_iff.1 h
    obtain ⟨-, -, -, hfresh⟩ := Heap.write_some hw
    exact ⟨hfresh, rfl, rfl⟩
  · obtain ⟨heap, hw, h⟩ := Option.bind_eq_some_iff.1 h
    obtain ⟨heap', hw', rfl⟩ := Option.map_eq_some_iff.1 h
    obtain ⟨-, -, -, hfresh⟩ := Heap.write_some hw
    obtain ⟨-, -, -, hfresh'⟩ := Heap.write_some hw'
    exact ⟨hfresh'.trans hfresh, rfl, rfl⟩

/-- An unlinking moves no thread. -/
theorem unlinkNode_frame {node : ℕ} (h : s.unlinkNode node = some t) :
    t.threads = s.threads ∧ t.count = s.count - 1 := by
  unfold unlinkNode at h
  dsimp only at h
  split at h
  · obtain ⟨k, -, h⟩ := Option.bind_eq_some_iff.1 h
    split at h
    · obtain ⟨heap, -, h⟩ := Option.bind_eq_some_iff.1 h
      obtain ⟨heap', -, rfl⟩ := Option.map_eq_some_iff.1 h
      exact ⟨rfl, rfl⟩
    · obtain ⟨heap, -, rfl⟩ := Option.map_eq_some_iff.1 h
      exact ⟨rfl, rfl⟩
  · split at h
    · obtain ⟨k, -, h⟩ := Option.bind_eq_some_iff.1 h
      obtain ⟨x, -, h⟩ := Option.bind_eq_some_iff.1 h
      obtain ⟨heap, -, h⟩ := Option.bind_eq_some_iff.1 h
      obtain ⟨heap', -, rfl⟩ := Option.map_eq_some_iff.1 h
      exact ⟨rfl, rfl⟩
    · obtain ⟨k, -, h⟩ := Option.bind_eq_some_iff.1 h
      obtain ⟨x, -, h⟩ := Option.bind_eq_some_iff.1 h
      obtain ⟨heap, -, h⟩ := Option.bind_eq_some_iff.1 h
      obtain ⟨k', -, h⟩ := Option.bind_eq_some_iff.1 h
      obtain ⟨y, -, h⟩ := Option.bind_eq_some_iff.1 h
      obtain ⟨heap', -, h⟩ := Option.bind_eq_some_iff.1 h
      obtain ⟨heap'', -, rfl⟩ := Option.map_eq_some_iff.1 h
      exact ⟨rfl, rfl⟩

/-- A thread goes out of an append, or, from the test of its loop, to its wait; it comes to a
    delete only from that delete. -/
def Enters (maxNodes : ℕ) (s u : PthreadDllist) (pc pc' : DllistPc) : Prop :=
  (pc'.appending? = none ∨ ∃ data, pc' = .wait data ∧ (pc = .append data ∨ pc = .woken data) ∧
    u = s ∧ maxNodes ≠ 0 ∧ s.count = maxNodes) ∧
  (pc'.deleting? = none ∨ pc'.deleting? = pc.deleting?)

/-- **A thread that goes on moves no other.** -/
theorem moved_of_go {i : ℕ} {ok : Bool} {pc : DllistPc} (h : s.goStep maxNodes i ok pc = some t) :
    ∃ u pc', t = u.goto i pc' ∧ u.threads = s.threads ∧ Enters maxNodes s u pc pc' := by
  cases pc with
  | out | wait data | signal node => cases h
  | append data | woken data =>
    simp only [goStep] at h
    split at h
    · unfold appendLocked at h
      split at h
      · rename_i hfull
        obtain rfl := Option.some.inj h
        exact ⟨_, _, rfl, rfl, Or.inr ⟨data, rfl, by simp, rfl, hfull⟩, Or.inl rfl⟩
      · split at h
        · obtain rfl := Option.some.inj h
          exact ⟨_, _, rfl, rfl, Or.inl rfl, Or.inl rfl⟩
        · obtain ⟨u, hu, rfl⟩ := Option.map_eq_some_iff.1 h
          exact ⟨_, _, rfl, (linkNode_frame hu).2.1, Or.inl rfl, Or.inl rfl⟩
    · cases h
  | expired data | visit =>
    simp only [goStep] at h
    split at h
    · obtain rfl := Option.some.inj h
      exact ⟨_, _, rfl, rfl, Or.inl rfl, Or.inl rfl⟩
    · cases h
  | delete data =>
    obtain rfl := Option.some.inj h
    cases s.node data with
    | none => exact ⟨_, _, rfl, rfl, Or.inl rfl, Or.inl rfl⟩
    | some node => exact ⟨_, _, rfl, rfl, Or.inl rfl, Or.inr rfl⟩
  | clear data node =>
    obtain ⟨heap, -, rfl⟩ := Option.map_eq_some_iff.1 h
    exact ⟨_, _, rfl, rfl, Or.inl rfl, Or.inr rfl⟩
  | forget data node =>
    obtain rfl := Option.some.inj h
    exact ⟨_, _, rfl, rfl, Or.inl rfl, Or.inl rfl⟩
  | free node | stopped node =>
    obtain ⟨x, -, rfl⟩ := Option.map_eq_some_iff.1 h
    exact ⟨_, _, rfl, rfl, Or.inl rfl, Or.inl rfl⟩
  | unlink node =>
    simp only [goStep] at h
    split at h
    · obtain ⟨u, hu, rfl⟩ := Option.map_eq_some_iff.1 h
      refine ⟨_, _, rfl, (unlinkNode_frame hu).1, ?_⟩
      split <;> exact ⟨Or.inl rfl, Or.inl rfl⟩
    · cases h
  | visiting idx node =>
    cases node with
    | none =>
      obtain rfl := Option.some.inj h
      exact ⟨_, _, rfl, rfl, Or.inl rfl, Or.inl rfl⟩
    | some node =>
      obtain ⟨k, -, rfl⟩ := Option.map_eq_some_iff.1 h
      cases ok <;> exact ⟨_, _, rfl, rfl, Or.inl rfl, Or.inl rfl⟩

/-- What the step `a` from `s` to `t` makes of a thread `i` that it takes from one place to
    another: the thread that goes, or a thread that is woken. -/
inductive Moved (maxNodes : ℕ) (s t : PthreadDllist) (i : ℕ) :
    DllistAct → DllistPc → DllistPc → Prop
  | append {data : ℕ} : Moved maxNodes s t i (.append i data) .out (.append data)
  | delete {data : ℕ} : Moved maxNodes s t i (.delete i (some data)) .out (.delete data)
  | visit : Moved maxNodes s t i (.visit i) .out .visit
  | go {ok : Bool} {u : PthreadDllist} {pc pc' : DllistPc} (ht : t = u.goto i pc')
      (he : Enters maxNodes s u pc pc') : Moved maxNodes s t i (.go i ok) pc pc'
  | signal {j : Option ℕ} {node : ℕ} :
      Moved maxNodes s t i (.signal i j) (.signal node) (.free node)
  | woken {j data : ℕ} : Moved maxNodes s t i (.signal j (some i)) (.wait data) (.woken data)
  | timeout {data : ℕ} : Moved maxNodes s t i (.timeout i) (.wait data) (.expired data)
  | spurious {data : ℕ} : Moved maxNodes s t i (.spurious i) (.wait data) (.woken data)

/-- A thread that goes from one place to another by an action of its own. -/
theorem moved_goto {u : PthreadDllist} {j : ℕ} {pc pc' : DllistPc} (i : ℕ)
    (hj : s.threads[j]? = some pc) (hu : u.threads = s.threads) (hgo : ∀ ok, a ≠ .go i ok)
    (hm : j = i → Moved maxNodes s (u.goto j pc') i a pc pc') :
    ((u.goto j pc').threads[i]? = s.threads[i]? ∧ ∀ ok, a ≠ .go i ok) ∨
      ∃ pc₀ pc₁, s.threads[i]? = some pc₀ ∧ (u.goto j pc').threads[i]? = some pc₁ ∧
        Moved maxNodes s (u.goto j pc') i a pc₀ pc₁ := by
  by_cases hij : i = j
  · subst hij
    exact Or.inr ⟨pc, pc', hj, get_goto_self (hu ▸ hj), hm rfl⟩
  · exact Or.inl ⟨by rw [get_goto, if_neg hij, hu], hgo⟩

/-- **What a step makes of a thread.** -/
theorem moved_of_step (h : step maxNodes s a = some t) (i : ℕ) :
    (t.threads[i]? = s.threads[i]? ∧ ∀ ok, a ≠ .go i ok) ∨
      ∃ pc pc', s.threads[i]? = some pc ∧ t.threads[i]? = some pc' ∧
        Moved maxNodes s t i a pc pc' := by
  cases a with
  | append j x | visit j =>
    simp only [step] at h
    split at h
    · rename_i hj
      obtain rfl := Option.some.inj h
      exact moved_goto i hj rfl (by simp) fun hji => by subst hji; constructor
    · cases h
  | delete j x =>
    simp only [step] at h
    split at h
    · rename_i hj
      obtain rfl := Option.some.inj h
      cases x with
      | none => exact Or.inl ⟨rfl, by simp⟩
      | some x => exact moved_goto i hj rfl (by simp) fun hji => by subst hji; constructor
    · cases h
  | go j ok =>
    obtain ⟨pc, hj, h⟩ := Option.bind_eq_some_iff.1 h
    obtain ⟨u, pc', rfl, hu, hent⟩ := moved_of_go h
    by_cases hij : i = j
    · subst hij
      exact Or.inr ⟨pc, pc', hj, get_goto_self (hu ▸ hj), .go rfl hent⟩
    · exact Or.inl ⟨by rw [get_goto, if_neg hij, hu], fun ok' he => by cases he; exact hij rfl⟩
  | signal j k =>
    simp only [step] at h
    split at h
    · rename_i hj
      split at h
      · cases h
      · obtain rfl := Option.some.inj h
        exact moved_goto i hj rfl (by simp) fun hji => by subst hji; constructor
    · rename_i n k hj
      split at h
      · rename_i x hk
        obtain rfl := Option.some.inj h
        by_cases hij : i = j
        · subst hij
          have hne : i ≠ k := by
            rintro rfl
            cases hj.symm.trans hk
          have hi : (s.goto k (.woken x)).threads[i]? = some (.signal n) := by
            rw [get_goto, if_neg hne, hj]
          exact Or.inr ⟨_, _, hj, get_goto_self hi, .signal⟩
        · by_cases hik : i = k
          · subst hik
            exact Or.inr ⟨_, _, hk, by rw [get_goto, if_neg hij, get_goto_self hk], .woken⟩
          · exact Or.inl ⟨by rw [get_goto, if_neg hij, get_goto, if_neg hik], by simp⟩
      · cases h
    · cases h
  | timeout j | spurious j =>
    simp only [step] at h
    split at h
    · rename_i x hj
      obtain rfl := Option.some.inj h
      exact moved_goto i hj rfl (by simp) fun hji => by subst hji; constructor
    · cases h

/-! ## What is seen -/

theorem event_go_none {i : ℕ} {ok : Bool} {pc : DllistPc} (hi : s.threads[i]? = some pc)
    (happ : pc.appending? = none) (hunlink : ∀ n, pc ≠ .unlink n)
    (hvisit : ∀ idx n, pc ≠ .visiting idx (some n)) : event s (.go i ok) t = none := by
  simp only [event, hi]
  cases pc with
  | append | woken | expired => cases happ
  | unlink n => exact absurd rfl (hunlink n)
  | visiting idx node =>
    cases node with
    | none => rfl
    | some n => exact absurd rfl (hvisit idx n)
  | _ => rfl

/-- What is seen comes from a thread that goes on, in an append, a delete or a visit. -/
theorem event_cases {e : DllistEvent} (h : event s a t = some e) :
    ∃ i ok pc, a = .go i ok ∧ s.threads[i]? = some pc ∧
      ((∃ data, pc.appending? = some data ∧ (e = .linked data s.heap.fresh ∨
          e = .rejected i data ∧ t.heap.fresh = s.heap.fresh)) ∨
        (∃ n, pc = .unlink n ∧ e = .unlinked n) ∨
        ∃ idx n, pc = .visiting idx (some n) ∧
          e = .handled idx (s.heap.field PthreadNode.data n)) := by
  cases a with
  | go i ok =>
    cases hi : s.threads[i]? with
    | none =>
      simp only [event, hi] at h
      cases h
    | some pc =>
      refine ⟨i, ok, pc, rfl, hi, ?_⟩
      simp only [event, hi] at h
      cases pc with
      | append data | woken data | expired data =>
        dsimp only at h
        refine Or.inl ⟨data, rfl, ?_⟩
        split at h
        · cases h
        · split at h
          · exact Or.inl (Option.some.inj h).symm
          · rename_i hfresh
            exact Or.inr ⟨(Option.some.inj h).symm, not_not.1 hfresh⟩
      | unlink n => exact Or.inr (Or.inl ⟨n, rfl, (Option.some.inj h).symm⟩)
      | visiting idx node =>
        cases node with
        | none => cases h
        | some n => exact Or.inr (Or.inr ⟨idx, n, rfl, (Option.some.inj h).symm⟩)
      | _ => cases h
  | _ => cases h

/-- What an append does with the lock. -/
theorem trans_appendLocked {i data : ℕ} {ok : Bool} {pc : DllistPc}
    (hi : s.threads[i]? = some pc) (hpc : pc = .append data ∨ pc = .woken data)
    (hm : s.mtx = none) (h : s.appendLocked maxNodes i data ok = some t) :
    Trans maxNodes s t (event s (.go i ok) t) := by
  have hlight : pc.light := by rcases hpc with rfl | rfl <;> rfl
  have hdata : pc.appending? = some data := by rcases hpc with rfl | rfl <;> rfl
  have hev : event s (.go i ok) t = if t.threads[i]? ≠ some .out then none
      else if t.heap.fresh ≠ s.heap.fresh then some (.linked data s.heap.fresh)
      else some (.rejected i data) := by
    rcases hpc with rfl | rfl <;> simp only [event, hi]
  rw [hev]
  unfold appendLocked at h
  split at h
  · obtain rfl := Option.some.inj h
    rw [get_goto_self hi, if_pos (by simp)]
    exact .move hi hlight rfl rfl
  · rename_i hfull
    split at h
    · obtain rfl := Option.some.inj h
      rw [get_goto_self hi, if_neg (by simp), if_neg (by simp [goto])]
      exact .move hi hlight rfl rfl
    · obtain ⟨u, hu, rfl⟩ := Option.map_eq_some_iff.1 h
      obtain ⟨hfresh, hthreads, -⟩ := linkNode_frame hu
      have hi' : u.threads[i]? = some pc := by rw [hthreads, hi]
      rw [get_goto_self hi', if_neg (by simp), if_pos (by simp [goto, hfresh])]
      refine .link hi hlight hdata hm ?_ hu
      by_contra hno
      push Not at hno
      exact hfull hno

/-- What a thread that goes on can do. -/
theorem trans_goStep {i : ℕ} {ok : Bool} {pc : DllistPc} (hi : s.threads[i]? = some pc)
    (h : s.goStep maxNodes i ok pc = some t) : Trans maxNodes s t (event s (.go i ok) t) := by
  cases pc with
  | out | wait data | signal node => cases h
  | append data | woken data =>
    simp only [goStep] at h
    split at h
    · exact trans_appendLocked hi (by simp) ‹_› h
    · cases h
  | expired data =>
    simp only [goStep] at h
    split at h
    · obtain rfl := Option.some.inj h
      have hev : event s (.go i ok) (s.goto i .out) = some (.rejected i data) := by
        simp only [event, hi]
        rw [get_goto_self hi, if_neg (by simp), if_neg (by simp [goto])]
      rw [hev]
      exact .move hi rfl rfl rfl
    · cases h
  | delete data =>
    obtain rfl := Option.some.inj h
    rw [event_go_none hi rfl (by simp) (by simp)]
    cases hn : s.node data with
    | none => exact .move hi rfl rfl rfl
    | some node => exact .found hi hn
  | clear data node =>
    obtain ⟨heap, hw, rfl⟩ := Option.map_eq_some_iff.1 h
    rw [event_go_none hi rfl (by simp) (by simp)]
    exact .clear hi hw
  | forget data node =>
    obtain rfl := Option.some.inj h
    rw [event_go_none hi rfl (by simp) (by simp)]
    exact .forget hi
  | unlink node =>
    simp only [goStep] at h
    split at h
    · obtain ⟨u, hu, rfl⟩ := Option.map_eq_some_iff.1 h
      have hev : ∀ t, event s (.go i ok) t = some (.unlinked node) :=
        fun t => by simp only [event, hi]
      rw [hev]
      refine .unlink hi ‹_› hu ?_
      split
      · exact .inl rfl
      · exact .inr rfl
    · cases h
  | free node =>
    obtain ⟨heap, hf, rfl⟩ := Option.map_eq_some_iff.1 h
    rw [event_go_none hi rfl (by simp) (by simp)]
    exact .free hi hf
  | visit =>
    simp only [goStep] at h
    split at h
    · obtain rfl := Option.some.inj h
      rw [event_go_none hi rfl (by simp) (by simp)]
      exact .lock hi ‹_›
    · cases h
  | visiting idx node =>
    cases node with
    | none =>
      obtain rfl := Option.some.inj h
      rw [event_go_none hi rfl (by simp) (by simp)]
      exact .finish hi
    | some node =>
      obtain ⟨k, hk, rfl⟩ := Option.map_eq_some_iff.1 h
      have hev : ∀ t, event s (.go i ok) t = some (.handled idx k.data) := by
        intro t
        simp only [event, hi]
        rw [Heap.field_of_get hk]
      rw [hev]
      cases ok with
      | true => exact .next hi hk
      | false => exact .stop hi hk
  | stopped node =>
    obtain ⟨k, -, rfl⟩ := Option.map_eq_some_iff.1 h
    rw [event_go_none hi rfl (by simp) (by simp)]
    exact .move hi rfl rfl rfl

/-- **What a step can do.** -/
theorem trans_of_step (h : step maxNodes s a = some t) : Trans maxNodes s t (event s a t) := by
  cases a with
  | append i data =>
    simp only [step] at h
    split at h
    · obtain rfl := Option.some.inj h
      exact .move ‹_› rfl rfl rfl
    · cases h
  | delete i data =>
    simp only [step] at h
    split at h
    · obtain rfl := Option.some.inj h
      cases data with
      | none => exact .stay
      | some data => exact .move ‹_› rfl rfl rfl
    · cases h
  | visit i =>
    simp only [step] at h
    split at h
    · obtain rfl := Option.some.inj h
      exact .move ‹_› rfl rfl rfl
    · cases h
  | go i ok =>
    obtain ⟨pc, hi, h⟩ := Option.bind_eq_some_iff.1 h
    exact trans_goStep hi h
  | signal i j =>
    simp only [step] at h
    split at h
    · split at h
      · cases h
      · obtain rfl := Option.some.inj h
        exact .pass ‹_›
    · split at h
      · obtain rfl := Option.some.inj h
        exact .wake ‹_› ‹_›
      · cases h
    · cases h
  | timeout i | spurious i =>
    simp only [step] at h
    split at h
    · obtain rfl := Option.some.inj h
      exact .move ‹_› rfl rfl rfl
    · cases h

end

end PthreadDllist

end SmtpProxy
