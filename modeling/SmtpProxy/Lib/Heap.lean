/-
  A heap of cells under names.

  * `alloc k` gives the cell `k` a name that was never given, `place n k` the
    name `n`, which must not be in use; `write n f` changes the cell `n`, `free n`
    takes it away; these fail on a name without a cell;
  * `write_some`, `write_of_get`, `free_some`: what they need and what they do;
  * `field h p`: a pointer field `p` of the cells, as a function of their names.
-/
import Mathlib.Data.Nat.Notation
import Mathlib.Logic.Function.Basic
import Mathlib.Tactic.TypeStar

structure Heap (κ : Type*) where
  get : ℕ → Option κ
  fresh : ℕ
  bound : ∀ n, get n ≠ none → n < fresh

namespace Heap

variable {κ π : Type*} {h h' : Heap κ} {n m : ℕ} {k : κ} {f : κ → κ} {p : κ → Option π}

def empty : Heap κ := ⟨fun _ => none, 0, fun _ hn => absurd rfl hn⟩

theorem get_fresh (h : Heap κ) : h.get h.fresh = none := by
  by_contra hne
  exact Nat.lt_irrefl _ (h.bound _ hne)

/-- A new cell, at `h.fresh`. -/
def alloc (h : Heap κ) (k : κ) : Heap κ where
  get := Function.update h.get h.fresh (some k)
  fresh := h.fresh + 1
  bound n hn := by
    by_cases he : n = h.fresh
    · omega
    · rw [Function.update_of_ne he] at hn
      exact Nat.lt_succ_of_lt (h.bound n hn)

theorem get_alloc (h : Heap κ) (k : κ) (m : ℕ) :
    (h.alloc k).get m = if m = h.fresh then some k else h.get m := by
  by_cases hm : m = h.fresh
  · rw [if_pos hm, hm]
    exact Function.update_self ..
  · rw [if_neg hm]
    exact Function.update_of_ne hm ..

/-- A new cell at a name that has none. -/
def place (h : Heap κ) (n : ℕ) (k : κ) : Option (Heap κ) :=
  if h.get n = none then some {
    get := Function.update h.get n (some k)
    fresh := max h.fresh (n + 1)
    bound := fun m hm => by
      by_cases he : m = n
      · omega
      · rw [Function.update_of_ne he] at hm
        have hlt := h.bound m hm
        omega }
  else none

/-- Change the cell `n`. -/
def write (h : Heap κ) (n : ℕ) (f : κ → κ) : Option (Heap κ) :=
  if hn : h.get n = none then none
  else some {
    get := Function.update h.get n ((h.get n).map f)
    fresh := h.fresh
    bound := fun m hm => by
      by_cases he : m = n
      · subst he; exact h.bound m hn
      · rw [Function.update_of_ne he] at hm
        exact h.bound m hm }

/-- Take the cell `n` away. -/
def free (h : Heap κ) (n : ℕ) : Option (Heap κ) :=
  if h.get n = none then none
  else some {
    get := Function.update h.get n none
    fresh := h.fresh
    bound := fun m hm => by
      by_cases he : m = n
      · subst he; simp at hm
      · rw [Function.update_of_ne he] at hm
        exact h.bound m hm }

theorem write_some (hw : h.write n f = some h') : ∃ k, h.get n = some k ∧
    h'.get = Function.update h.get n (some (f k)) ∧ h'.fresh = h.fresh := by
  unfold write at hw
  split at hw
  · cases hw
  · rename_i hn
    obtain ⟨k, hk⟩ := Option.ne_none_iff_exists'.1 hn
    obtain rfl := Option.some.inj hw
    refine ⟨k, hk, ?_, rfl⟩
    change Function.update h.get n ((h.get n).map f) = _
    rw [hk]
    rfl

theorem write_of_get (f : κ → κ) (hk : h.get n = some k) : ∃ h', h.write n f = some h' ∧
    h'.get = Function.update h.get n (some (f k)) ∧ h'.fresh = h.fresh := by
  have hn : h.get n ≠ none := by rw [hk]; simp
  refine ⟨_, dif_neg hn, ?_, rfl⟩
  change Function.update h.get n ((h.get n).map f) = _
  rw [hk]
  rfl

theorem place_of_none (k : κ) (hn : h.get n = none) : ∃ h', h.place n k = some h' ∧
    h'.get = Function.update h.get n (some k) :=
  ⟨_, if_pos hn, rfl⟩

theorem free_isSome (hn : h.get n ≠ none) : ∃ h', h.free n = some h' :=
  ⟨_, if_neg hn⟩

theorem free_some (hf : h.free n = some h') : h.get n ≠ none ∧
    h'.get = Function.update h.get n none ∧ h'.fresh = h.fresh := by
  unfold free at hf
  split at hf
  · cases hf
  · rename_i hn
    obtain rfl := Option.some.inj hf
    exact ⟨hn, rfl, rfl⟩

/-! ## Pointer fields -/

/-- The pointer field `p` of the cell `n`. -/
def field (h : Heap κ) (p : κ → Option π) (n : ℕ) : Option π := (h.get n).bind p

theorem field_of_get (hk : h.get n = some k) : h.field p n = p k := by
  rw [field, hk, Option.bind_some]

/-- A field is read from the cell as it is. -/
theorem field_congr (hm : (h'.get m).map p = (h.get m).map p) : h'.field p m = h.field p m := by
  have hbind := congrArg (fun o => o.bind id) hm
  rw [Option.bind_map, Option.bind_map] at hbind
  exact hbind

theorem write_isSome (hn : h.get n ≠ none) : ∃ h', h.write n f = some h' := by
  obtain ⟨k, hk⟩ := Option.ne_none_iff_exists'.1 hn
  obtain ⟨h', hw, -⟩ := write_of_get f hk
  exact ⟨h', hw⟩

/-- Writing keeps what a cell does not lose. -/
theorem map_write {γ : Type*} {r : κ → γ} (hw : h.write n f = some h') (hr : ∀ k, r (f k) = r k)
    (m : ℕ) : (h'.get m).map r = (h.get m).map r := by
  obtain ⟨k, hk, hget, -⟩ := write_some hw
  rw [hget]
  by_cases hm : m = n
  · subst hm
    rw [Function.update_self, hk, Option.map_some, Option.map_some, hr]
  · rw [Function.update_of_ne hm]

theorem write_eq_none_iff (hw : h.write n f = some h') (m : ℕ) :
    h'.get m = none ↔ h.get m = none := by
  have hmap := map_write (r := fun _ => ()) hw (fun _ => rfl) m
  rw [← Option.map_eq_none_iff, hmap, Option.map_eq_none_iff]

theorem get_write_of_ne (hw : h.write n f = some h') (hm : m ≠ n) : h'.get m = h.get m := by
  obtain ⟨k, -, hget, -⟩ := write_some hw
  rw [hget, Function.update_of_ne hm]

theorem field_write_of_ne (hw : h.write n f = some h') (hm : m ≠ n) :
    h'.field p m = h.field p m := by
  rw [field, field, get_write_of_ne hw hm]

/-- A field that the write gives a value. -/
theorem field_write_self {c : Option π} (hw : h.write n f = some h') (hp : ∀ k, p (f k) = c) :
    h'.field p n = c := by
  obtain ⟨k, -, hget, -⟩ := write_some hw
  rw [field, hget, Function.update_self, Option.bind_some, hp]

/-- A field that the write does not change. -/
theorem field_write_same (hw : h.write n f = some h') (hp : ∀ k, p (f k) = p k) (m : ℕ) :
    h'.field p m = h.field p m := by
  by_cases hm : m = n
  · subst hm
    obtain ⟨k, hk, hget, -⟩ := write_some hw
    rw [field, field, hget, Function.update_self, hk, Option.bind_some, Option.bind_some, hp]
  · exact field_write_of_ne hw hm

end Heap
