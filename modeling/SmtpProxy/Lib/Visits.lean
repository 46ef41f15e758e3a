/-
  Visiting a sequence with a handler that may stop the visit, and that changes
  a state.

  * `visit h ds idx arg`: the calls `h idx d arg` on the elements, up to the
    first one that answers 0;
  * `visit_spec`: which calls those are, and where the visit stops;
  * `visit_found`: with a handler that keeps the state, a visit is a search.
-/
import Mathlib.Data.Int.Notation
import Mathlib.Data.List.Basic
import Mathlib.Data.Nat.Notation
import Mathlib.Tactic.TypeStar

/-- The calls of the handler, each an element with its index; the element that
    the visit stopped at; and what the state has become. -/
structure Visit (δ σ : Type*) where
  calls : List (δ × ℕ)
  found : Option δ
  arg : σ
  deriving DecidableEq

namespace Visit

variable {δ σ : Type*} (h : ℕ → δ → σ → ℤ × σ)

def visit : List δ → ℕ → σ → Visit δ σ
  | [], _, arg => ⟨[], none, arg⟩
  | d :: ds, idx, arg =>
    let (r, arg) := h idx d arg
    if r = 0 then ⟨[(d, idx)], some d, arg⟩
    else
      let v := visit ds (idx + 1) arg
      { v with calls := (d, idx) :: v.calls }

/-- The state before the call number `k`. -/
def argAt (ds : List δ) (idx : ℕ) (arg : σ) : ℕ → σ
  | 0 => arg
  | k + 1 =>
    match ds[k]? with
    | some d => (h (idx + k) d (argAt ds idx arg k)).2
    | none => argAt ds idx arg k

/-- The call number `k` answers 0. -/
def Stops (ds : List δ) (idx : ℕ) (arg : σ) (k : ℕ) : Prop :=
  ∃ d, ds[k]? = some d ∧ (h (idx + k) d (argAt h ds idx arg k)).1 = 0

section
variable {h} {d : δ} {ds : List δ} {idx k : ℕ} {arg : σ}

theorem argAt_cons : argAt h (d :: ds) idx arg (k + 1) =
    argAt h ds (idx + 1) (h idx d arg).2 k := by
  induction k with
  | zero => rfl
  | succ k ih =>
    have hidx : idx + (k + 1) = idx + 1 + k := by omega
    rw [argAt, ih, argAt, List.getElem?_cons_succ, hidx]

theorem stops_cons : Stops h (d :: ds) idx arg (k + 1) ↔
    Stops h ds (idx + 1) (h idx d arg).2 k := by
  have hidx : idx + (k + 1) = idx + 1 + k := by omega
  rw [Stops, Stops, argAt_cons, List.getElem?_cons_succ, hidx]

theorem stops_zero : Stops h (d :: ds) idx arg 0 ↔ (h idx d arg).1 = 0 := by
  simp [Stops, argAt]

theorem not_stops_nil : ¬ Stops h [] idx arg k := by
  simp [Stops]

theorem visit_stop (hr : (h idx d arg).1 = 0) :
    visit h (d :: ds) idx arg = ⟨[(d, idx)], some d, (h idx d arg).2⟩ := by
  simp [visit, hr]

theorem visit_go (hr : (h idx d arg).1 ≠ 0) : visit h (d :: ds) idx arg =
    { visit h ds (idx + 1) (h idx d arg).2 with
      calls := (d, idx) :: (visit h ds (idx + 1) (h idx d arg).2).calls } := by
  simp [visit, hr]

/-- **A visit calls the handler on the elements in their order, with their
    indices, up to the first call that answers 0**; it stops there, or at the
    end. -/
theorem visit_spec (ds : List δ) (idx : ℕ) (arg : σ) :
    (∃ k, Stops h ds idx arg k ∧ (∀ j < k, ¬ Stops h ds idx arg j) ∧
      (visit h ds idx arg).calls = (ds.take (k + 1)).zipIdx idx ∧
      (visit h ds idx arg).found = ds[k]?) ∨
    (∀ j, ¬ Stops h ds idx arg j) ∧ (visit h ds idx arg).calls = ds.zipIdx idx ∧
      (visit h ds idx arg).found = none := by
  induction ds generalizing idx arg with
  | nil => exact .inr ⟨fun _ => not_stops_nil, rfl, rfl⟩
  | cons d ds ih =>
    by_cases hr : (h idx d arg).1 = 0
    · rw [visit_stop hr]
      exact .inl ⟨0, stops_zero.2 hr, nofun, rfl, rfl⟩
    · rw [visit_go hr]
      rcases ih (idx + 1) (h idx d arg).2 with ⟨k, hk, hlt, hcalls, hfound⟩ | ⟨hno, hcalls, hfound⟩
      · refine .inl ⟨k + 1, stops_cons.2 hk, fun j hj => ?_, ?_, hfound⟩
        · cases j with
          | zero => exact mt stops_zero.1 hr
          | succ j => exact mt stops_cons.1 (hlt j (by omega))
        · rw [List.take_succ_cons, List.zipIdx_cons, ← hcalls]
      · refine .inr ⟨fun j => ?_, ?_, hfound⟩
        · cases j with
          | zero => exact mt stops_zero.1 hr
          | succ j => exact mt stops_cons.1 (hno j)
        · rw [List.zipIdx_cons, ← hcalls]

/-- **A visit is a search**, if the handler keeps the state. -/
theorem visit_found {p : δ → Bool}
    (hp : ∀ idx, ∀ d ∈ ds, h idx d arg = (if p d then 0 else 1, arg)) :
    ∀ idx, (visit h ds idx arg).found = ds.find? p ∧ (visit h ds idx arg).arg = arg := by
  induction ds with
  | nil => exact fun _ => ⟨rfl, rfl⟩
  | cons d ds ih =>
    intro idx
    have hself := hp idx d (by simp)
    by_cases hd : p d = true
    · rw [visit_stop (by simp [hself, hd]), List.find?_cons_of_pos hd]
      exact ⟨rfl, by simp [hself]⟩
    · rw [visit_go (by simp [hself, hd]), List.find?_cons_of_neg hd, hself]
      exact ih (fun idx e he => hp idx e (by simp [he])) (idx + 1)

end

end Visit
