/-
  What the lists of dllist.c are for: sequences of nodes, each with its data,
  and for each data the node it names.

  * `step`: append at the end, removal, removal and append;
  * `Allowed`: what the functions rely on: what is deleted or moved is in the
    list, what is appended is in none;
  * `wf_step`: every node is at one place at most;
  * `named_step_iff`: the data of the lists name their nodes as long as
    `dllistAppendNode` gets nodes that their data name (`Own`).
-/
import SmtpProxy.Dllist.State

namespace SmtpProxy

/-- The nodes of each list, the data of the nodes that are allocated, and the
    nodes that the data name. -/
structure Seqs where
  nodes : ℕ → List ℕ
  data : ℕ → Option (Option ℕ)
  node : ℕ → Option ℕ

namespace Seqs

section
variable (A : Seqs)

def put (i : ℕ) (l : List ℕ) : Seqs := { A with nodes := Function.update A.nodes i l }

def add (i n : ℕ) : Seqs := A.put i (A.nodes i ++ [n])

def remove (i n : ℕ) : Seqs := A.put i ((A.nodes i).erase n)

/-- The node is given data, or freed; the data name it, or nothing. -/
def setData (n : ℕ) (k : Option (Option ℕ)) : Seqs := { A with data := Function.update A.data n k }

def setNode (d : ℕ) (n : Option ℕ) : Seqs := { A with node := Function.update A.node d n }

def step : DllistCall → Seqs
  | .append i d n => ((A.setData n (some (some d))).setNode d (some n)).add i n
  | .delete _ none => A
  | .delete i (some d) =>
    match A.node d with
    | none => A
    | some n => ((A.remove i n).setData n none).setNode d none
  | .appendNode i n => A.add i n
  | .deleteNode i n => A.remove i n
  | .mvNode a n b => (A.remove a n).add b n

/-- The data of a list. -/
def seq (i : ℕ) : List (Option ℕ) := (A.nodes i).map fun n => (A.data n).join

/-- What is deleted or moved is in the list, what is appended is in no list; a
    new node is not in use. -/
def Allowed : DllistCall → Prop
  | .append _ d n => A.data n = none ∧ ∀ j, ∀ m ∈ A.nodes j, A.data m ≠ some (some d)
  | .delete _ none => True
  | .delete i (some d) => ∀ n, A.node d = some n → n ∈ A.nodes i
  | .appendNode _ n => A.data n ≠ none ∧ ∀ j, n ∉ A.nodes j
  | .deleteNode i n => n ∈ A.nodes i
  | .mvNode a n _ => n ∈ A.nodes a

/-- The data of a node that is appended name it. -/
def Own : DllistCall → Prop
  | .appendNode _ n => ∀ d, A.data n = some (some d) → A.node d = some n
  | _ => True

/-- The data in the lists name their nodes. -/
def Named : Prop := ∀ i, ∀ n ∈ A.nodes i, ∀ d, A.data n = some (some d) → A.node d = some n

/-- The nodes of the lists are allocated, and each is at one place. -/
structure Wf : Prop where
  nodup : ∀ i, (A.nodes i).Nodup
  apart : ∀ i j n, n ∈ A.nodes i → n ∈ A.nodes j → i = j
  alive : ∀ i, ∀ n ∈ A.nodes i, A.data n ≠ none

end

/-- The lists that a call is about. -/
def lists : DllistCall → List ℕ
  | .append i _ _ | .delete i _ | .appendNode i _ | .deleteNode i _ => [i]
  | .mvNode a _ b => [a, b]

section
variable {A : Seqs} {i j n m d : ℕ} {k : Option (Option ℕ)} {o : Option ℕ} {a : DllistCall}

/-! ## The pieces of a call -/

@[simp] theorem data_add : (A.add i n).data = A.data := rfl

@[simp] theorem node_add : (A.add i n).node = A.node := rfl

@[simp] theorem data_remove : (A.remove i n).data = A.data := rfl

@[simp] theorem node_remove : (A.remove i n).node = A.node := rfl

@[simp] theorem nodes_setData : (A.setData n k).nodes = A.nodes := rfl

@[simp] theorem node_setData : (A.setData n k).node = A.node := rfl

@[simp] theorem nodes_setNode : (A.setNode d o).nodes = A.nodes := rfl

@[simp] theorem data_setNode : (A.setNode d o).data = A.data := rfl

@[simp] theorem data_setData_self : (A.setData n k).data n = k := Function.update_self ..

theorem data_setData_of_ne (h : m ≠ n) : (A.setData n k).data m = A.data m :=
  Function.update_of_ne h ..

@[simp] theorem node_setNode_self : (A.setNode d o).node d = o := Function.update_self ..

theorem node_setNode_of_ne {e : ℕ} (h : e ≠ d) : (A.setNode d o).node e = A.node e :=
  Function.update_of_ne h ..

theorem nodes_add_self : (A.add i n).nodes i = A.nodes i ++ [n] := Function.update_self ..

theorem nodes_add_of_ne (h : j ≠ i) : (A.add i n).nodes j = A.nodes j := Function.update_of_ne h ..

theorem nodes_remove_self : (A.remove i n).nodes i = (A.nodes i).erase n := Function.update_self ..

theorem nodes_remove_of_ne (h : j ≠ i) : (A.remove i n).nodes j = A.nodes j :=
  Function.update_of_ne h ..

theorem mem_add : m ∈ (A.add i n).nodes j ↔ m ∈ A.nodes j ∨ j = i ∧ m = n := by
  by_cases hj : j = i
  · subst hj
    rw [nodes_add_self]
    simp
  · rw [nodes_add_of_ne hj]
    simp [hj]

theorem Wf.mem_remove (h : A.Wf) :
    m ∈ (A.remove i n).nodes j ↔ m ∈ A.nodes j ∧ ¬ (j = i ∧ m = n) := by
  by_cases hj : j = i
  · subst hj
    rw [nodes_remove_self, (h.nodup j).mem_erase_iff]
    simp [and_comm]
  · rw [nodes_remove_of_ne hj]
    simp [hj]

theorem seq_add : (A.add i n).seq j = if j = i then A.seq i ++ [(A.data n).join] else A.seq j := by
  rw [seq]
  split
  · rename_i hj
    subst hj
    rw [nodes_add_self, List.map_append]
    rfl
  · rename_i hj
    rw [nodes_add_of_ne hj]
    rfl

theorem seq_setData (hn : n ∉ A.nodes j) : (A.setData n k).seq j = A.seq j := by
  refine List.map_congr_left fun m hm => ?_
  rw [data_setData_of_ne]
  rintro rfl
  exact hn hm

/-! ## Every node is at one place -/

theorem Wf.add (h : A.Wf) (hn : A.data n ≠ none) (hno : ∀ j, n ∉ A.nodes j) : (A.add i n).Wf where
  nodup j := by
    by_cases hj : j = i
    · subst hj
      rw [nodes_add_self]
      refine List.nodup_append.2 ⟨h.nodup j, by simp, fun x hx y hy he => ?_⟩
      rw [he, List.mem_singleton.1 hy] at hx
      exact hno j hx
    · rw [nodes_add_of_ne hj]
      exact h.nodup j
  apart j₁ j₂ m h₁ h₂ := by
    rcases mem_add.1 h₁ with hm₁ | ⟨rfl, rfl⟩
    · rcases mem_add.1 h₂ with hm₂ | ⟨-, rfl⟩
      · exact h.apart j₁ j₂ m hm₁ hm₂
      · exact absurd hm₁ (hno j₁)
    · rcases mem_add.1 h₂ with hm₂ | ⟨rfl, -⟩
      · exact absurd hm₂ (hno j₂)
      · rfl
  alive j m hm := by
    rcases mem_add.1 hm with hm | ⟨-, rfl⟩
    · exact h.alive j m hm
    · exact hn

theorem Wf.remove (h : A.Wf) : (A.remove i n).Wf where
  nodup j := by
    by_cases hj : j = i
    · subst hj
      rw [nodes_remove_self]
      exact (h.nodup j).erase n
    · rw [nodes_remove_of_ne hj]
      exact h.nodup j
  apart j₁ j₂ m h₁ h₂ := h.apart j₁ j₂ m (h.mem_remove.1 h₁).1 (h.mem_remove.1 h₂).1
  alive j m hm := h.alive j m (h.mem_remove.1 hm).1

/-- A node that has been removed is in no list. -/
theorem Wf.not_mem_remove (h : A.Wf) (hn : n ∈ A.nodes i) (j : ℕ) :
    n ∉ (A.remove i n).nodes j := by
  intro hmem
  obtain ⟨hmem, hne⟩ := h.mem_remove.1 hmem
  exact hne ⟨h.apart j i n hmem hn, rfl⟩

/-- The data of nodes that are in no list do not matter. -/
theorem Wf.setData (h : A.Wf) (hno : k = none → ∀ j, n ∉ A.nodes j) : (A.setData n k).Wf where
  nodup := h.nodup
  apart := h.apart
  alive j m hm := by
    by_cases hmn : m = n
    · subst hmn
      rw [data_setData_self]
      exact fun hk => hno hk j hm
    · rw [data_setData_of_ne hmn]
      exact h.alive j m hm

theorem Wf.setNode (h : A.Wf) : (A.setNode d o).Wf := ⟨h.nodup, h.apart, h.alive⟩

theorem wf_step (h : A.Wf) (ha : A.Allowed a) : (A.step a).Wf := by
  cases a with
  | append i d n =>
    have hno : ∀ j, n ∉ A.nodes j := fun j hn => h.alive j n hn ha.1
    refine ((h.setData (k := some (some d)) nofun).setNode).add ?_ hno
    simp [Seqs.setData]
  | delete i o =>
    cases o with
    | none => exact h
    | some d =>
      rw [step]
      split
      · exact h
      · rename_i n hn
        exact (h.remove.setData fun _ => h.not_mem_remove (ha n hn)).setNode
  | appendNode i n => exact h.add ha.1 ha.2
  | deleteNode i n => exact h.remove
  | mvNode a n b => exact h.remove.add (h.alive a n ha) (h.not_mem_remove ha)

/-- What an append does to the data of its list. -/
theorem seq_append (h : A.Wf) (ha : A.Allowed (.append i d n)) :
    (A.step (.append i d n)).seq i = A.seq i ++ [some d] := by
  have hnodes : (A.step (.append i d n)).nodes i = A.nodes i ++ [n] := nodes_add_self
  have hself : (A.step (.append i d n)).data n = some (some d) := data_setData_self
  have hother : ∀ m ∈ A.nodes i, (A.step (.append i d n)).data m = A.data m := by
    intro m hm
    refine data_setData_of_ne ?_
    rintro rfl
    exact h.alive i m hm ha.1
  rw [seq, hnodes, List.map_append, List.map_singleton, hself]
  congr 1
  exact List.map_congr_left fun m hm => by rw [hother m hm]

/-! ## The data name their nodes -/

theorem named_append (h : A.Wf) (hN : A.Named) (ha : A.Allowed (.append i d n)) :
    (A.step (.append i d n)).Named := by
  obtain ⟨hfree, hno⟩ := ha
  intro j m hm e he
  rcases mem_add.1 hm with hm | ⟨-, rfl⟩
  · have hmn : m ≠ n := by
      rintro rfl
      exact h.alive j m hm hfree
    have hm' : A.data m = some (some e) := (data_setData_of_ne hmn).symm.trans he
    have hed : e ≠ d := by
      rintro rfl
      exact hno j m hm hm'
    exact (node_setNode_of_ne hed).trans (hN j m hm e hm')
  · have hd : some (some d) = some (some e) := data_setData_self.symm.trans he
    obtain rfl := Option.some.inj (Option.some.inj hd)
    exact node_setNode_self

theorem named_delete (h : A.Wf) (hN : A.Named) (hn : A.node d = some n) (hmem : n ∈ A.nodes i) :
    (((A.remove i n).setData n none).setNode d none).Named := by
  intro j m hm e he
  have hmn : m ≠ n := by
    rintro rfl
    exact h.not_mem_remove hmem j hm
  have hm' : m ∈ A.nodes j := (h.mem_remove.1 hm).1
  have he' : A.data m = some (some e) := (data_setData_of_ne hmn).symm.trans he
  have hname := hN j m hm' e he'
  have hed : e ≠ d := by
    rintro rfl
    exact hmn (Option.some.inj (hname.symm.trans hn))
  exact (node_setNode_of_ne hed).trans hname

/-- The image of an element is where the element is, if no other has it. -/
theorem map_erase {f : ℕ → Option ℕ} {l : List ℕ} (h : ∀ m ∈ l, f m = f n → m = n) :
    (l.erase n).map f = (l.map f).erase (f n) := by
  induction l with
  | nil => rfl
  | cons m l ih =>
    by_cases hm : m = n
    · subst hm
      rw [List.erase_cons_head, List.map_cons, List.erase_cons_head]
    · have hne : f m ≠ f n := fun he => hm (h m List.mem_cons_self he)
      rw [List.erase_cons_tail (by simpa using hm), List.map_cons, List.map_cons,
        List.erase_cons_tail (by simpa using hne), ih fun m hm => h m (List.mem_cons_of_mem _ hm)]

/-- Data that name their nodes are at one place in a list. -/
theorem seq_remove (hN : A.Named) (hn : n ∈ A.nodes i) (hdata : A.data n = some (some d)) :
    (A.remove i n).seq j = if j = i then (A.seq i).erase (some d) else A.seq j := by
  have hinj : ∀ m ∈ A.nodes i, (A.data m).join = (A.data n).join → m = n := by
    intro m hm he
    rw [hdata] at he
    have hname := hN i m hm d (Option.join_eq_some_iff.1 he)
    exact Option.some.inj (hname.symm.trans (hN i n hn d hdata))
  rw [seq]
  split
  · rename_i hj
    subst hj
    rw [nodes_remove_self, data_remove, map_erase hinj, hdata]
    rfl
  · rename_i hj
    rw [nodes_remove_of_ne hj]
    rfl

/-- **The data in the lists go on naming their nodes iff an appended node is its
    data's own.** -/
theorem named_step_iff (h : A.Wf) (hN : A.Named) (ha : A.Allowed a) :
    (A.step a).Named ↔ A.Own a := by
  cases a with
  | append i d n => exact iff_of_true (named_append h hN ha) trivial
  | delete i o =>
    refine iff_of_true ?_ trivial
    cases o with
    | none => exact hN
    | some d =>
      rw [step]
      split
      · exact hN
      · rename_i n hn
        exact named_delete h hN hn (ha n hn)
  | appendNode i n =>
    constructor
    · exact fun hN' => hN' i n (mem_add.2 (.inr ⟨rfl, rfl⟩))
    · intro hown j m hm
      rcases mem_add.1 hm with hm | ⟨-, rfl⟩
      · exact hN j m hm
      · exact hown
  | deleteNode i n => exact iff_of_true (fun j m hm => hN j m (h.mem_remove.1 hm).1) trivial
  | mvNode a n b =>
    refine iff_of_true (fun j m hm => ?_) trivial
    rcases mem_add.1 hm with hm | ⟨-, rfl⟩
    · exact hN j m (h.mem_remove.1 hm).1
    · exact hN a m ha

end

end Seqs

end SmtpProxy
