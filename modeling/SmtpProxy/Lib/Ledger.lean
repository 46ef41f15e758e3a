/-
  Accounts of resources: which of them have been taken and given back.

  * `Accounts f m`: the moves `m` leave each resource `r` in the custody `f r`;
    `Accounts.append`: what further moves make of it;
  * `balanced_iff`: all that was taken has been given back once, unless
    something is still held.
-/
import Mathlib.Data.List.Count
import Mathlib.Tactic.TypeStar

namespace Ledger

variable {ρ : Type*} [DecidableEq ρ]

inductive Move (ρ : Type*) where
  | took (r : ρ)
  | gave (r : ρ)
  deriving DecidableEq

inductive Custody where
  | unused
  | held
  | released
  deriving DecidableEq

namespace Custody

/-- How often the resource has been taken. -/
def taken : Custody → ℕ
  | .unused => 0
  | .held | .released => 1

def given : Custody → ℕ
  | .unused | .held => 0
  | .released => 1

end Custody

/-- The moves leave each resource in this custody, taken and given at most once. -/
def Accounts (f : ρ → Custody) (m : List (Move ρ)) : Prop :=
  ∀ r, m.count (.took r) = (f r).taken ∧ m.count (.gave r) = (f r).given

/-- Everything that has been taken has been given back, once. -/
def Balanced (m : List (Move ρ)) : Prop :=
  ∀ r, m.count (.took r) ≤ 1 ∧ m.count (.gave r) = m.count (.took r)

variable {f g : ρ → Custody} {m m' : List (Move ρ)}

theorem Accounts.append (h : Accounts f m) (hg : ∀ r, (g r).taken = (f r).taken + m'.count (.took r) ∧
    (g r).given = (f r).given + m'.count (.gave r)) : Accounts g (m ++ m') := by
  intro r
  obtain ⟨htook, hgave⟩ := h r
  obtain ⟨htook', hgave'⟩ := hg r
  rw [List.count_append, List.count_append, htook, hgave]
  exact ⟨htook'.symm, hgave'.symm⟩

/-- **An account is balanced when nothing is held.** -/
theorem balanced_iff (h : Accounts f m) : Balanced m ↔ ∀ r, f r ≠ .held := by
  refine forall_congr' fun r => ?_
  obtain ⟨htook, hgave⟩ := h r
  rw [htook, hgave]
  cases f r <;> simp [Custody.taken, Custody.given]

end Ledger
