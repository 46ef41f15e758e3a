/-
  Runs with a log: `event s a t` is what the step `a` from `s` to `t` tells, if
  anything, and `Logged` is a state with all that has been told on the way.

  * `reach_state`: the log changes nothing;
  * `exists_entry`: the step that has made an entry, and the log before it;
  * `since`: how often something has been told since the last of some other
    events; `since_append`, `since_reset`: what it says about a part of the log.
-/
import Mathlib.Data.List.Count
import Mathlib.Data.List.Induction
import SmtpProxy.Lib.Runs

namespace Runs

variable {σ α ε : Type*}

structure Logged (σ ε : Type*) where
  state : σ
  log : List ε
  deriving DecidableEq

namespace Logged

/-- A state with nothing told yet. -/
def start (s : σ) : Logged σ ε := ⟨s, []⟩

/-- A step, and what it tells. -/
def step (base : σ → α → Option σ) (event : σ → α → σ → Option ε) (d : Logged σ ε) (a : α) :
    Option (Logged σ ε) :=
  (base d.state a).map fun t => ⟨t, d.log ++ (event d.state a t).toList⟩

variable {base : σ → α → Option σ} {event : σ → α → σ → Option ε} {s : σ} {d d' : Logged σ ε}

theorem step_eq_some {a : α} : step base event d a = some d' ↔
    base d.state a = some d'.state ∧ d'.log = d.log ++ (event d.state a d'.state).toList := by
  unfold step
  rw [Option.map_eq_some_iff]
  constructor
  · rintro ⟨t, ht, rfl⟩
    exact ⟨ht, rfl⟩
  · rintro ⟨ht, hlog⟩
    refine ⟨d'.state, ht, ?_⟩
    rw [← hlog]

/-- A run with a log is a run. -/
theorem reach_state (h : Reach (step base event) (start s) d) : Reach base s d.state := by
  refine h.inv (I := fun d => Reach base s d.state) .refl ?_
  intro d a d' hd ha
  exact hd.snoc (step_eq_some.1 ha).1

/-- **The step behind an entry.** -/
theorem exists_entry (h : Reach (step base event) (start s) d) {l₁ l₂ : List ε} {e : ε}
    (hl : d.log = l₁ ++ e :: l₂) : ∃ d₀ a d₁, Reach (step base event) (start s) d₀ ∧
      d₀.log = l₁ ∧ step base event d₀ a = some d₁ ∧ event d₀.state a d₁.state = some e := by
  obtain ⟨p, hp⟩ := h
  induction hp generalizing l₂ with
  | nil => cases l₁ <;> cases hl
  | @snoc p d d' a hp ha ih =>
    obtain ⟨-, hlog⟩ := step_eq_some.1 ha
    rw [hlog] at hl
    cases hev : event d.state a d'.state with
    | none =>
      rw [hev, Option.toList_none, List.append_nil] at hl
      exact ih hl
    | some e' =>
      rw [hev, Option.toList_some] at hl
      rcases List.eq_nil_or_concat l₂ with rfl | ⟨l₃, x, rfl⟩
      · obtain ⟨rfl, he⟩ := List.append_inj' hl rfl
        obtain rfl : e' = e := List.head_eq_of_cons_eq he
        exact ⟨d, a, d', hp.reach, rfl, ha, hev⟩
      · rw [List.concat_eq_append, ← List.cons_append, ← List.append_assoc] at hl
        exact ih (List.append_inj' hl rfl).1

end Logged

/-! ## Counting since an event -/

/-- How many entries of the log are a `hit`, behind the last one that is a `reset`. -/
def since (reset hit : ε → Bool) (l : List ε) : ℕ :=
  l.foldl (fun n e => if reset e then 0 else if hit e then n + 1 else n) 0

variable {reset hit : ε → Bool} {l l₁ l₂ : List ε} {e : ε}

theorem since_snoc : since reset hit (l ++ [e]) =
    if reset e then 0 else if hit e then since reset hit l + 1 else since reset hit l := by
  rw [since, List.foldl_append]
  rfl

/-- Without a `reset`, the hits are added up. -/
theorem since_append (h : ∀ e ∈ l₂, reset e = false) :
    since reset hit (l₁ ++ l₂) = since reset hit l₁ + l₂.countP hit := by
  induction l₂ using List.reverseRecOn with
  | nil => rw [List.append_nil, List.countP_nil, Nat.add_zero]
  | append_singleton l₂ e ih =>
    obtain ⟨h₂, he⟩ := List.forall_mem_append.1 h
    rw [← List.append_assoc, since_snoc, ih h₂, he e (List.mem_singleton_self e),
      List.countP_append, List.countP_singleton]
    cases hit e <;> simp [Nat.add_assoc]

/-- **Between a `reset` and the end of the log.** -/
theorem since_reset (he : reset e) (h : ∀ e ∈ l₂, reset e = false) :
    since reset hit (l₁ ++ e :: l₂) = l₂.countP hit := by
  rw [← List.singleton_append, ← List.append_assoc, since_append h, since_snoc, if_pos he, Nat.zero_add]

end Runs
