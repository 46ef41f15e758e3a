/-
  What the pointer surgery of pthread_dllist.c does to the chain of the nodes.

  * `Shape s l`: the table of `s` is the list of the nodes `l`: forward from
    `head` and backward from `tail`, with their number in `count`;
  * `linkNode_shape`, `unlinkNode_shape`: a node at the end, a node less;
    `unlinkNode_none`: a node that is not in the list cannot be unlinked;
  * `Keeps`, `Adds`: what they leave as it was.
-/
import SmtpProxy.Lib.Links
import SmtpProxy.PthreadDllist.State

namespace SmtpProxy

open DList

/-- The pointers of a node, and its data. -/
def PthreadNode.links : Links PthreadNode (Option ℕ) where
  prev := prev
  next := next
  rest := data
  setPrev p k := { k with prev := p }
  setNext p k := { k with next := p }
  prev_setPrev _ _ := rfl
  prev_setNext _ _ := rfl
  next_setPrev _ _ := rfl
  next_setNext _ _ := rfl
  rest_setPrev _ _ := rfl
  rest_setNext _ _ := rfl

namespace PthreadDllist

/-- The table is the list of the nodes `l`; the nodes that are not in it have no `prev`. -/
structure Shape (s : PthreadDllist) (l : List ℕ) : Prop where
  chain : Chain s.head s.tail s.next s.prev l
  count : s.count = l.length
  alive : ∀ n ∈ l, s.heap.get n ≠ none
  loose : ∀ n, n ∉ l → s.prev n = none

/-- The surgery of an unlinking leaves locks, threads, data and allocation alone. -/
structure Keeps (s t : PthreadDllist) : Prop where
  mtx : t.mtx = s.mtx
  node : t.node = s.node
  threads : t.threads = s.threads
  fresh : t.heap.fresh = s.heap.fresh
  data : ∀ n, (t.heap.get n).map PthreadNode.data = (s.heap.get n).map PthreadNode.data

/-- What an append makes of the rest of the state. -/
structure Adds (s : PthreadDllist) (data : ℕ) (t : PthreadDllist) : Prop where
  mtx : t.mtx = s.mtx
  node : t.node = Function.update s.node data (some s.heap.fresh)
  threads : t.threads = s.threads
  fresh : t.heap.fresh = s.heap.fresh + 1
  self : t.heap.field PthreadNode.data s.heap.fresh = some data
  data : ∀ n, n ≠ s.heap.fresh →
    t.heap.field PthreadNode.data n = s.heap.field PthreadNode.data n
  alloc : ∀ n, t.heap.get n = none ↔ n ≠ s.heap.fresh ∧ s.heap.get n = none

/-- The heap and the ends of the list have changed. -/
def relink (s : PthreadDllist) (count : ℤ) (r : Heap PthreadNode × Option ℕ × Option ℕ) :
    PthreadDllist :=
  { s with heap := r.1, head := r.2.1, tail := r.2.2, count := count }

section
variable {s t : PthreadDllist} {l : List ℕ} {n : ℕ}

theorem Shape.isList (h : s.Shape l) : PthreadNode.links.IsList s.heap s.head s.tail l :=
  ⟨h.chain, h.alive⟩

/-! ## Appending -/

theorem linkNode_eq (data : ℕ) : s.linkNode data =
    (PthreadNode.links.append (s.heap.alloc ⟨some data, none, none⟩) s.head s.tail
      s.heap.fresh).map
      ({ s with node := Function.update s.node data (some s.heap.fresh) }.relink (s.count + 1)) := by
  unfold linkNode Links.append
  cases s.tail with
  | none =>
    dsimp only
    rw [Option.map_map]
    rfl
  | some x =>
    dsimp only
    simp only [Option.map_bind, Function.comp_def, Option.map_map]
    rfl

/-- **An append puts its node at the end of the list.** -/
theorem linkNode_shape (h : s.Shape l) (data : ℕ) :
    ∃ t, s.linkNode data = some t ∧ t.Shape (l ++ [s.heap.fresh]) ∧ s.Adds data t := by
  have hnl : s.heap.fresh ∉ l := fun hm => h.alive _ hm s.heap.get_fresh
  have hget := s.heap.get_alloc ⟨some data, none, none⟩
  have hself : (s.heap.alloc ⟨some data, none, none⟩).get s.heap.fresh =
      some ⟨some data, none, none⟩ := by rw [hget, if_pos rfl]
  have hlist : PthreadNode.links.IsList (s.heap.alloc ⟨some data, none, none⟩) s.head s.tail l := by
    refine h.isList.congr fun m hm => ?_
    rw [hget, if_neg]
    rintro rfl
    exact hnl hm
  obtain ⟨heap, head, tail, happ, hlist', hk⟩ := Links.append_chain hlist hnl (by rw [hself]; nofun)
  have hdata : ∀ m, heap.field PthreadNode.data m =
      (s.heap.alloc ⟨some data, none, none⟩).field PthreadNode.data m :=
    fun m => Heap.field_congr (hk.rest m)
  refine ⟨_, by rw [linkNode_eq, happ, Option.map_some], ⟨hlist'.chain, ?_, hlist'.alive, ?_⟩, ?_⟩
  · have hcount := h.count
    simp only [relink, List.length_append, List.length_singleton]
    omega
  · intro m hm
    have hne : m ≠ s.heap.fresh := fun he => hm (by simp [he])
    have hm' : heap.get m = s.heap.get m := (hk.other m hm).trans (by rw [hget, if_neg hne])
    change heap.field PthreadNode.prev m = none
    rw [Heap.field, hm']
    exact h.loose m fun hml => hm (List.mem_append_left _ hml)
  · refine ⟨rfl, rfl, rfl, hk.fresh, ?_, ?_, ?_⟩
    · exact (hdata _).trans (Heap.field_of_get hself)
    · intro m hm
      exact (hdata m).trans (by rw [Heap.field, Heap.field, hget, if_neg hm])
    · intro m
      refine (hk.get_eq_none m).trans ?_
      rw [hget]
      by_cases hm : m = s.heap.fresh
      · simp [hm]
      · simp [hm]

/-! ## Unlinking -/

theorem Keeps.field_data (h : s.Keeps t) (m : ℕ) :
    t.heap.field PthreadNode.data m = s.heap.field PthreadNode.data m :=
  Heap.field_congr (h.data m)

theorem unlinkNode_eq : s.unlinkNode n =
    (PthreadNode.links.remove s.heap s.head s.tail n).map (s.relink (s.count - 1)) := by
  unfold unlinkNode Links.remove
  dsimp only
  split
  · simp only [Option.map_bind, Function.comp_def]
    congr 1
    funext k
    cases hk : k.next with
    | none =>
      have hk' : PthreadNode.links.next k = none := hk
      rw [hk']
      dsimp only
      rw [Option.map_map]
      rfl
    | some y =>
      have hk' : PthreadNode.links.next k = some y := hk
      rw [hk']
      simp only [Option.map_bind, Function.comp_def, Option.map_map]
      rfl
  · split
    · simp only [Option.map_bind, Function.comp_def, Option.map_map]
      rfl
    · simp only [Option.map_bind, Function.comp_def, Option.map_map]
      rfl

/-- **An unlinking takes its node off the list.** -/
theorem unlinkNode_shape (h : s.Shape l) (hn : n ∈ l) :
    ∃ t, s.unlinkNode n = some t ∧ t.Shape (l.erase n) ∧ s.Keeps t := by
  obtain ⟨heap, head, tail, hrem, hR⟩ := Links.remove_chain h.isList hn
  refine ⟨s.relink (s.count - 1) (heap, head, tail), by rw [unlinkNode_eq, hrem, Option.map_some],
    ⟨hR.list.chain, ?_, hR.list.alive, ?_⟩, ⟨rfl, rfl, rfl, hR.keeps.fresh, hR.keeps.rest⟩⟩
  · have hpos := List.length_pos_of_mem hn
    have hcount := h.count
    simp only [relink, List.length_erase_of_mem hn]
    omega
  · intro m hm
    change heap.field PthreadNode.prev m = none
    by_cases he : m = n
    · rw [he]
      exact hR.prev
    · have hml : m ∉ l := fun hml => hm ((List.mem_erase_of_ne he).2 hml)
      rw [Heap.field, hR.keeps.other m hml]
      exact h.loose m hml

/-- **A node that is not in the list cannot be unlinked**: its `prev` is NULL. -/
theorem unlinkNode_none (h : s.Shape l) (hn : n ∉ l) : s.unlinkNode n = none := by
  rw [unlinkNode_eq, Links.remove_none h.isList hn (h.loose n hn), Option.map_none]

end

end PthreadDllist

end SmtpProxy
