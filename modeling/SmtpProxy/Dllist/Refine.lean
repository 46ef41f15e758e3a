/-
  The lists of dllist.c are the sequences of `Seqs`.

  * `Represents`: the chains of pointers are the sequences;
  * `represents_step`: a call that is allowed does to the lists what it does to
    the sequences, and leaves the other lists alone;
  * `dllistVisit_eq`: a visit calls its handler on the sequence;
  * `dllists_refine`: all of it, for any calls.
-/
import SmtpProxy.Dllist.Seqs
import SmtpProxy.Lib.Links
import SmtpProxy.Lib.Runs

namespace SmtpProxy

open DList

/-- The pointers of a node, and its data. -/
def DllistNode.links : Links DllistNode (Option ℕ) where
  prev := prev
  next := next
  rest := data
  setPrev p k := { k with prev := p }
  setNext p k := { k with next := p }
  prev_setPrev _ _ := rfl
  prev_setNext _ _ := rfl
  next_setPrev _ _ := rfl
  next_setNext _ _ := rfl
  rest_setPrev _ _ := rfl
  rest_setNext _ _ := rfl

namespace Dllists

/-- The lists are the sequences: as chains forward from `head` and backward from
    `tail`, with their length in `count`. -/
structure Represents (s : Dllists) (A : Seqs) : Prop where
  list : ∀ i, DllistNode.links.IsList s.heap (s.list i).head (s.list i).tail (A.nodes i)
  count : ∀ i, (s.list i).count = (A.nodes i).length
  data : ∀ n, (s.heap.get n).map DllistNode.data = A.data n
  node : s.node = A.node

/-- The lists other than `js` are left alone, and so are their nodes. -/
def Leaves (s : Dllists) (A : Seqs) (js : List ℕ) (t : Dllists) : Prop :=
  ∀ j, j ∉ js → t.list j = s.list j ∧ ∀ n ∈ A.nodes j, t.heap.get n = s.heap.get n

/-- The heap and the ends of the list `i` have changed. -/
def relink (s : Dllists) (i : ℕ) (count : ℤ) (r : Heap DllistNode × Option ℕ × Option ℕ) : Dllists :=
  { s with heap := r.1 }.setList i ⟨r.2.1, r.2.2, count⟩

section
variable {s t : Dllists} {A : Seqs} {i j n d : ℕ} {o : Option ℕ} {a : DllistCall}

/-! ## The surgery -/

theorem dllistAppendNode_eq : s.dllistAppendNode i n =
    (DllistNode.links.append s.heap (s.list i).head (s.list i).tail n).map
      (s.relink i ((s.list i).count + 1)) := by
  unfold dllistAppendNode Links.append
  generalize s.list i = d
  obtain ⟨head, tail, count⟩ := d
  cases tail with
  | none =>
    dsimp only
    rw [Option.map_map]
    rfl
  | some x =>
    dsimp only
    simp only [Option.map_bind, Function.comp_def, Option.map_map]
    rfl

theorem dllistDeleteNode_eq : s.dllistDeleteNode i n =
    (DllistNode.links.remove s.heap (s.list i).head (s.list i).tail n).map
      (s.relink i ((s.list i).count - 1)) := by
  unfold dllistDeleteNode Links.remove
  generalize s.list i = d
  obtain ⟨head, tail, count⟩ := d
  dsimp only
  split
  · simp only [Option.map_bind, Function.comp_def]
    congr 1
    funext k
    cases hk : k.next with
    | none =>
      have hk' : DllistNode.links.next k = none := hk
      rw [hk']
      dsimp only
      rw [Option.map_map]
      rfl
    | some y =>
      have hk' : DllistNode.links.next k = some y := hk
      rw [hk']
      simp only [Option.map_bind, Function.comp_def, Option.map_map]
      rfl
  · split
    · simp only [Option.map_bind, Function.comp_def, Option.map_map]
      rfl
    · simp only [Option.map_bind, Function.comp_def, Option.map_map]
      rfl

/-- The list `i` has new ends and nodes. -/
theorem represents_relink {l l' : List ℕ} {count : ℤ}
    {r : Heap DllistNode × Option ℕ × Option ℕ} (h : s.Represents A)
    (hr : DllistNode.links.IsList r.1 r.2.1 r.2.2 l') (hk : DllistNode.links.Keeps s.heap l r.1)
    (hd : ∀ j, j ≠ i → ∀ m ∈ A.nodes j, m ∉ l) (hc : count = l'.length) :
    (s.relink i count r).Represents (A.put i l') ∧ s.Leaves A [i] (s.relink i count r) := by
  have hself : (s.relink i count r).list i = ⟨r.2.1, r.2.2, count⟩ := Function.update_self ..
  have hother : ∀ j, j ≠ i → (s.relink i count r).list j = s.list j := fun j hj =>
    Function.update_of_ne hj ..
  have hnodes : (A.put i l').nodes i = l' := Function.update_self ..
  have hnodes' : ∀ j, j ≠ i → (A.put i l').nodes j = A.nodes j := fun j hj =>
    Function.update_of_ne hj ..
  have hget : ∀ j, j ≠ i → ∀ m ∈ A.nodes j, r.1.get m = s.heap.get m := fun j hj m hm =>
    hk.other m (hd j hj m hm)
  refine ⟨⟨fun j => ?_, fun j => ?_, fun m => ?_, h.node⟩, fun j hj => ?_⟩
  · by_cases hj : j = i
    · subst hj
      rw [hself, hnodes]
      exact hr
    · rw [hother j hj, hnodes' j hj]
      exact (h.list j).congr (hget j hj)
  · by_cases hj : j = i
    · subst hj
      rw [hself, hnodes, hc]
    · rw [hother j hj, hnodes' j hj]
      exact h.count j
  · exact (hk.rest m).trans (h.data m)
  · have hne : j ≠ i := by simpa using hj
    exact ⟨hother j hne, hget j hne⟩

theorem represents_appendNode (h : s.Represents A) (hn : A.data n ≠ none)
    (hno : ∀ j, n ∉ A.nodes j) (hw : A.Wf) (i : ℕ) :
    ∃ t, s.dllistAppendNode i n = some t ∧ t.Represents (A.add i n) ∧ s.Leaves A [i] t := by
  have hget : s.heap.get n ≠ none := by
    rw [← h.data] at hn
    simpa using hn
  obtain ⟨h', head, tail, happ, hlist, hk⟩ := Links.append_chain (h.list i) (hno i) hget
  refine ⟨s.relink i ((s.list i).count + 1) (h', head, tail), ?_, ?_⟩
  · rw [dllistAppendNode_eq, happ]
    rfl
  · refine represents_relink h hlist hk (fun j hj m hm hmem => ?_) ?_
    · rcases List.mem_append.1 hmem with hmem | hmem
      · exact hj (hw.apart j i m hm hmem)
      · rw [List.mem_singleton.1 hmem] at hm
        exact hno j hm
    · rw [h.count]
      simp

theorem represents_deleteNode (h : s.Represents A) (hn : n ∈ A.nodes i) (hw : A.Wf) :
    ∃ t, s.dllistDeleteNode i n = some t ∧ t.Represents (A.remove i n) ∧ s.Leaves A [i] t := by
  obtain ⟨h', head, tail, hrem, hR⟩ := Links.remove_chain (h.list i) hn
  refine ⟨s.relink i ((s.list i).count - 1) (h', head, tail), ?_, ?_⟩
  · rw [dllistDeleteNode_eq, hrem]
    rfl
  · refine represents_relink h hR.list hR.keeps (fun j hj m hm hmem => ?_) ?_
    · exact hj (hw.apart j i m hm hmem)
    · have hpos := List.length_pos_of_mem hn
      rw [h.count, List.length_erase_of_mem hn]
      omega

/-! ## The calls -/

theorem represents_mvNode {b : ℕ} (h : s.Represents A) (hn : n ∈ A.nodes i) (hw : A.Wf) :
    ∃ t, s.dllistMvNode i n b = some t ∧ t.Represents ((A.remove i n).add b n) ∧
      s.Leaves A [i, b] t := by
  obtain ⟨u, hu, hR, hL⟩ := represents_deleteNode h hn hw
  obtain ⟨t, ht, hR', hL'⟩ := represents_appendNode hR (hw.alive i n hn) (hw.not_mem_remove hn)
    hw.remove b
  refine ⟨t, by rw [dllistMvNode, hu, Option.bind_some, ht], hR', fun j hj => ?_⟩
  have hji : j ≠ i := fun he => hj (by simp [he])
  have hjb : j ≠ b := fun he => hj (by simp [he])
  obtain ⟨hlist, hget⟩ := hL j (by simpa using hji)
  obtain ⟨hlist', hget'⟩ := hL' j (by simpa using hjb)
  rw [Seqs.nodes_remove_of_ne hji] at hget'
  exact ⟨hlist'.trans hlist, fun m hm => (hget' m hm).trans (hget m hm)⟩

/-- The new node of an append, before it is linked. -/
theorem represents_calloc (h : s.Represents A) (hn : A.data n = none) (hw : A.Wf) (d : ℕ) :
    ∃ heap heap', s.heap.place n ⟨none, none, none⟩ = some heap ∧
      heap.write n (fun k => { k with data := some d }) = some heap' ∧
      Represents { s with heap := heap', node := Function.update s.node d (some n) }
        ((A.setData n (some (some d))).setNode d (some n)) ∧
      ∀ m, m ≠ n → heap'.get m = s.heap.get m := by
  have hfree : s.heap.get n = none := by
    rw [← h.data] at hn
    simpa using hn
  obtain ⟨heap, hplace, hget⟩ := Heap.place_of_none (⟨none, none, none⟩ : DllistNode) hfree
  have hself : heap.get n = some ⟨none, none, none⟩ := by rw [hget, Function.update_self]
  obtain ⟨heap', hwrite, hget', -⟩ := Heap.write_of_get
    (fun k : DllistNode => { k with data := some d }) hself
  have hother : ∀ m, m ≠ n → heap'.get m = s.heap.get m := by
    intro m hm
    rw [hget', Function.update_of_ne hm, hget, Function.update_of_ne hm]
  refine ⟨heap, heap', hplace, hwrite, ⟨fun j => ?_, h.count, fun m => ?_, ?_⟩, hother⟩
  · refine (h.list j).congr fun m hm => hother m ?_
    rintro rfl
    exact hw.alive j m hm hn
  · by_cases hm : m = n
    · subst hm
      simp [hget']
    · simp only [hother m hm, Seqs.data_setNode, Seqs.data_setData_of_ne hm, h.data]
  · rw [Seqs.setNode, Seqs.node_setData, h.node]

theorem represents_append (h : s.Represents A) (ha : A.Allowed (.append i d n)) (hw : A.Wf) :
    ∃ t, s.dllistAppend i d n = some t ∧ t.Represents (A.step (.append i d n)) ∧
      s.Leaves A [i] t := by
  have hno : ∀ j, n ∉ A.nodes j := fun j hn => hw.alive j n hn ha.1
  obtain ⟨heap, heap', hplace, hwrite, hR, hother⟩ := represents_calloc h ha.1 hw d
  obtain ⟨t, ht, hR', hL⟩ := represents_appendNode hR (by simp) hno
    (hw.setData (k := some (some d)) nofun).setNode i
  refine ⟨t, by rw [dllistAppend, hplace, Option.bind_some, hwrite, Option.bind_some, ht], hR',
    fun j hj => ?_⟩
  obtain ⟨hlist, hget⟩ := hL j hj
  refine ⟨hlist, fun m hm => (hget m hm).trans (hother m ?_)⟩
  rintro rfl
  exact hno j hm

/-- A node that is in no list is freed. -/
theorem represents_free (h : s.Represents A) (hn : A.data n ≠ none) (hno : ∀ j, n ∉ A.nodes j) :
    ∃ heap, s.heap.free n = some heap ∧ Represents { s with heap := heap } (A.setData n none) ∧
      ∀ m, m ≠ n → heap.get m = s.heap.get m := by
  have hget : s.heap.get n ≠ none := by
    rw [← h.data] at hn
    simpa using hn
  obtain ⟨heap, hfree⟩ := Heap.free_isSome hget
  obtain ⟨-, hheap, -⟩ := Heap.free_some hfree
  have hother : ∀ m, m ≠ n → heap.get m = s.heap.get m := by
    intro m hm
    rw [hheap, Function.update_of_ne hm]
  refine ⟨heap, hfree, ⟨fun j => ?_, h.count, fun m => ?_, h.node⟩, hother⟩
  · refine (h.list j).congr fun m hm => hother m ?_
    rintro rfl
    exact hno j hm
  · by_cases hm : m = n
    · subst hm
      simp [hheap]
    · simp only [hother m hm, Seqs.data_setData_of_ne hm, h.data]

/-- A node and its data forget each other. -/
theorem represents_forget (h : s.Represents A) (hn : A.data n ≠ none) (d : ℕ) :
    ∃ heap, s.heap.write n (fun k => { k with data := none }) = some heap ∧
      Represents { s with heap := heap, node := Function.update s.node d none }
        ((A.setData n (some none)).setNode d none) ∧
      ∀ m, m ≠ n → heap.get m = s.heap.get m := by
  have hget : s.heap.get n ≠ none := by
    rw [← h.data] at hn
    simpa using hn
  obtain ⟨k, hk⟩ := Option.ne_none_iff_exists'.1 hget
  obtain ⟨heap, hwrite, hheap, -⟩ := Heap.write_of_get
    (fun k : DllistNode => { k with data := none }) hk
  have hother : ∀ m, m ≠ n → heap.get m = s.heap.get m := fun m hm =>
    Heap.get_write_of_ne hwrite hm
  refine ⟨heap, hwrite, ⟨fun j => ?_, h.count, fun m => ?_, ?_⟩, hother⟩
  · exact (h.list j).write_rest hwrite (fun _ => rfl) fun _ => rfl
  · by_cases hm : m = n
    · subst hm
      simp [hheap]
    · simp only [hother m hm, Seqs.data_setNode, Seqs.data_setData_of_ne hm, h.data]
  · rw [Seqs.setNode, Seqs.node_setData, h.node]

theorem represents_delete (h : s.Represents A) (ha : A.Allowed (.delete i o)) (hw : A.Wf) :
    ∃ t, s.dllistDelete i o = some t ∧ t.Represents (A.step (.delete i o)) ∧
      s.Leaves A [i] t := by
  cases o with
  | none => exact ⟨s, rfl, h, fun _ _ => ⟨rfl, fun _ _ => rfl⟩⟩
  | some d =>
    have hnode : s.node d = A.node d := by rw [h.node]
    rw [dllistDelete, Seqs.step]
    cases hd : A.node d with
    | none =>
      rw [hd] at hnode
      rw [hnode]
      exact ⟨s, rfl, h, fun _ _ => ⟨rfl, fun _ _ => rfl⟩⟩
    | some n =>
      rw [hd] at hnode
      rw [hnode]
      have hn : n ∈ A.nodes i := ha n hd
      have hwB : ((A.setData n (some none)).setNode d none).Wf :=
        (hw.setData (k := some none) (by simp)).setNode
      obtain ⟨heap, hwrite, hR, hother⟩ := represents_forget h (hw.alive i n hn) d
      obtain ⟨u, hu, hR', hL⟩ := represents_deleteNode hR hn hwB
      obtain ⟨heap', hfree, hR'', hother'⟩ := represents_free hR'
        (by simp) (hwB.not_mem_remove hn)
      refine ⟨{ u with heap := heap' }, ?_, ?_, fun j hj => ?_⟩
      · simp only [hwrite, hu, hfree, Option.bind_some, Option.map_some]
      · have hdata : (((A.setData n (some none)).setNode d none).remove i n).setData n none =
            ((A.remove i n).setData n none).setNode d none := by
          simp [Seqs.setData, Seqs.setNode, Seqs.remove, Seqs.put]
        rw [hdata] at hR''
        exact hR''
      · obtain ⟨hlist, hget⟩ := hL j hj
        refine ⟨hlist, fun m hm => ?_⟩
        have hmn : m ≠ n := by
          rintro rfl
          exact hj (by simp [hw.apart j i m hm hn])
        exact (hother' m hmn).trans ((hget m hm).trans (hother m hmn))

/-- **A call that is allowed does to the lists what it does to the sequences**,
    and leaves the other lists alone. -/
theorem represents_step (h : s.Represents A) (hw : A.Wf) (ha : A.Allowed a) :
    ∃ t, s.step a = some t ∧ t.Represents (A.step a) ∧ s.Leaves A (Seqs.lists a) t := by
  cases a with
  | append i d n => exact represents_append h ha hw
  | delete i o => exact represents_delete h ha hw
  | appendNode i n => exact represents_appendNode h ha.1 ha.2 hw i
  | deleteNode i n => exact represents_deleteNode h ha hw
  | mvNode a n b => exact represents_mvNode h ha hw

/-! ## Visits -/

theorem visitLoop_eq {σ : Type} {h : ℕ → Option ℕ → σ → ℤ × σ} {l : List ℕ}
    (ha : ∀ n ∈ l, s.heap.get n ≠ none) :
    ∀ {p : Option ℕ} {rounds idx : ℕ} {arg : σ}, Seg (s.heap.field DllistNode.next) p l none →
      l.length < rounds → s.visitLoop h rounds p idx arg =
        some (Visit.visit h (l.map (s.heap.field DllistNode.data)) idx arg) := by
  induction l with
  | nil =>
    rintro p (_ | rounds) idx arg hs hlt
    · cases hlt
    · obtain rfl : p = none := hs
      rfl
  | cons n l ih =>
    rintro p (_ | rounds) idx arg hs hlt
    · cases hlt
    · obtain ⟨rfl, hs⟩ := hs
      obtain ⟨k, hk⟩ := Option.ne_none_iff_exists'.1 (ha n (by simp))
      rw [Heap.field_of_get hk] at hs
      rw [visitLoop, hk, Option.bind_some, List.map_cons, Heap.field_of_get hk]
      by_cases hr : (h idx k.data arg).1 = 0
      · rw [Visit.visit_stop hr]
        simp [hr]
      · rw [Visit.visit_go hr]
        have hrest : s.visitLoop h rounds k.next (idx + 1) (h idx k.data arg).2 =
            some (Visit.visit h (l.map (s.heap.field DllistNode.data)) (idx + 1)
              (h idx k.data arg).2) :=
          ih (fun m hm => ha m (by simp [hm])) hs (Nat.lt_of_succ_lt_succ hlt)
        simp [hr, hrest]

theorem Represents.seq_eq (h : s.Represents A) (i : ℕ) :
    A.seq i = (A.nodes i).map (s.heap.field DllistNode.data) := by
  refine List.map_congr_left fun n _ => ?_
  rw [← h.data, Heap.field]
  cases s.heap.get n <;> rfl

/-- On each list, `dllistVisit` calls its handler on the data in their order,
    with the indices from 0 on, up to the first call that answers 0, and returns
    the data it stopped at, or NULL. -/
def Visits (s : Dllists) (A : Seqs) : Prop :=
  ∀ {σ : Type} (h : ℕ → Option ℕ → σ → ℤ × σ) (i rounds : ℕ) (arg : σ),
    (A.nodes i).length < rounds → ∃ v, s.dllistVisit h rounds i arg = some (v, v.found.join) ∧
      ((∃ k, Visit.Stops h (A.seq i) 0 arg k ∧ (∀ j < k, ¬ Visit.Stops h (A.seq i) 0 arg j) ∧
          v.calls = ((A.seq i).take (k + 1)).zipIdx ∧ v.found = (A.seq i)[k]?) ∨
        (∀ j, ¬ Visit.Stops h (A.seq i) 0 arg j) ∧ v.calls = (A.seq i).zipIdx ∧ v.found = none)

theorem dllistVisit_eq {σ : Type} (hR : s.Represents A) {h : ℕ → Option ℕ → σ → ℤ × σ}
    {rounds : ℕ} (arg : σ) (hlt : (A.nodes i).length < rounds) :
    s.dllistVisit h rounds i arg =
      some (Visit.visit h (A.seq i) 0 arg, (Visit.visit h (A.seq i) 0 arg).found.join) := by
  have hl := hR.list i
  rw [dllistVisit, visitLoop_eq hl.alive hl.chain.forward hlt, ← hR.seq_eq]
  rfl

theorem visits (hR : s.Represents A) : s.Visits A := fun _ i _ arg hlt =>
  ⟨_, dllistVisit_eq hR arg hlt, Visit.visit_spec (A.seq i) 0 arg⟩

/-! ## Any calls -/

/-- The sequences that empty lists are, in any heap. -/
def seqs (s : Dllists) : Seqs :=
  ⟨fun _ => [], fun n => (s.heap.get n).map DllistNode.data, s.node⟩

theorem represents_seqs (h : ∀ i, s.list i = dllistNew) : s.Represents s.seqs where
  list i := by
    rw [h i]
    exact ⟨.nil, fun _ hm => absurd hm List.not_mem_nil⟩
  count i := by
    rw [h i]
    rfl
  data _ := rfl
  node := rfl

theorem wf_seqs : s.seqs.Wf := ⟨fun _ => List.nodup_nil, nofun, nofun⟩

/-- **The lists are sequences**: after any calls that are allowed, each list is
    what the calls have made of its sequence, a call leaves the other lists
    alone, and visits go along the sequences; and the data name their nodes all
    the time iff each `dllistAppendNode` gets a node that its data name. -/
theorem dllists_refine {s₀ : Dllists} (hnew : ∀ i, s₀.list i = dllistNew) (calls : List DllistCall)
    (hcalls : Runs.Guarded Seqs.step Seqs.Allowed s₀.seqs calls) :
    ∃ t, Runs.exec step s₀ calls = some t ∧ t.Represents (calls.foldl Seqs.step s₀.seqs) ∧
      t.Visits (calls.foldl Seqs.step s₀.seqs) ∧
      (∀ a, (calls.foldl Seqs.step s₀.seqs).Allowed a → ∃ u, t.step a = some u ∧
        u.Represents ((calls.foldl Seqs.step s₀.seqs).step a) ∧
        t.Leaves (calls.foldl Seqs.step s₀.seqs) (Seqs.lists a) u) ∧
      ((∀ A ∈ calls.scanl Seqs.step s₀.seqs, A.Named) ↔
        Runs.Guarded Seqs.step Seqs.Own s₀.seqs calls) := by
  obtain ⟨t, ht, hR, hw⟩ := Runs.exec_refines (R := fun s A => Represents s A ∧ A.Wf)
    (fun s A a ⟨hR, hw⟩ ha => by
      obtain ⟨u, hu, hR', -⟩ := represents_step hR hw ha
      exact ⟨u, hu, hR', Seqs.wf_step hw ha⟩) ⟨represents_seqs hnew, wf_seqs⟩ hcalls
  refine ⟨t, ht, hR, visits hR, fun a ha => represents_step hR hw ha, ?_⟩
  exact Runs.forall_scanl_iff (J := Seqs.Wf) (fun A a hw ha => Seqs.wf_step hw ha)
    (fun A a hw hN ha => Seqs.named_step_iff hw hN ha) wf_seqs nofun hcalls

end

/-- Two lists: two appends, a move and a deletion. -/
theorem dllists_refine_move :
    ∃ t, Runs.exec step empty [.append 0 7 0, .append 0 8 1, .mvNode 0 0 1, .delete 0 (some 8)] =
      some t ∧ t.Represents ([.append 0 7 0, .append 0 8 1, .mvNode 0 0 1,
        .delete 0 (some 8)].foldl Seqs.step empty.seqs) := by
  obtain ⟨t, ht, hR, -⟩ := @dllists_refine empty (fun _ => rfl)
    [.append 0 7 0, .append 0 8 1, .mvNode 0 0 1, .delete 0 (some 8)] (by
      simp [Runs.Guarded, Seqs.Allowed, Seqs.step, Seqs.add, Seqs.remove, Seqs.put, Seqs.setData,
        Seqs.setNode, seqs, empty, Heap.empty, Function.update_apply])
  exact ⟨t, ht, hR⟩

/-- The data of a node that has been deleted by `dllistDeleteNode` are appended
    in a new node and deleted likewise; then the old node is appended: it is in
    its list, with data that name the new node. -/
theorem named_fails :
    Runs.Guarded Seqs.step Seqs.Allowed empty.seqs
        [.append 0 7 0, .deleteNode 0 0, .append 0 7 1, .deleteNode 0 1, .appendNode 0 0] ∧
      (Runs.exec step empty [.append 0 7 0, .deleteNode 0 0, .append 0 7 1, .deleteNode 0 1,
        .appendNode 0 0]).map (fun t => (t.list 0, t.heap.get 0, t.node 7)) =
      some (⟨some 0, some 0, 1⟩, some ⟨some 7, none, none⟩, some 1) := by
  refine ⟨?_, by rfl⟩
  simp [Runs.Guarded, Seqs.Allowed, Seqs.step, Seqs.add, Seqs.remove, Seqs.put, Seqs.setData,
        Seqs.setNode, seqs, empty, Heap.empty, Function.update_apply]

end Dllists

end SmtpProxy
