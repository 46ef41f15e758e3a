/-
  Runs of a transition system given by an executable step function
  `step : σ → α → Option σ` (`none`: the action is not enabled).

  * `Path step s₀ p s`: the steps `p`, each recorded with the state it leaves,
    lead from `s₀` to `s`; `visited p s` are the states of that run;
  * `Path.inv`, `Path.inv_of`: what every step preserves (under a condition on
    the step) holds at the end of every run (whose steps meet it);
  * `Reach.simulated`: a run that another system can follow step by step;
  * `Path.visited_iff`: a property holds in all states of a run iff all its
    steps meet a condition, for a condition that is exact on single steps;
  * `exec`, `trace`: running a list of actions, to replay a run on a concrete
    input;
  * `exec_refines`, `forall_scanl_iff`: a total system that says which actions
    may be taken, and a step function that refines it.
-/
import Mathlib.Data.List.Basic
import Mathlib.Tactic.TypeStar

namespace Runs

variable {σ α : Type*} {step : σ → α → Option σ} {s₀ s : σ}

/-- The runs from `s₀`, with the steps taken. -/
inductive Path (step : σ → α → Option σ) (s₀ : σ) : List (σ × α) → σ → Prop
  | nil : Path step s₀ [] s₀
  | snoc {p : List (σ × α)} {s s' : σ} {a : α} : Path step s₀ p s → step s a = some s' →
      Path step s₀ (p ++ [(s, a)]) s'

/-- The states reachable from `s₀`. -/
def Reach (step : σ → α → Option σ) (s₀ s : σ) : Prop := ∃ p, Path step s₀ p s

/-- The states visited by the run `p` that ends in `s`. -/
def visited (p : List (σ × α)) (s : σ) : List σ := p.map Prod.fst ++ [s]

theorem mem_visited_self (p : List (σ × α)) (s : σ) : s ∈ visited p s := by simp [visited]

theorem mem_visited_of_mem {p : List (σ × α)} {x : σ × α} (hx : x ∈ p) : x.1 ∈ visited p s :=
  List.mem_append_left _ (List.mem_map_of_mem hx)

theorem visited_snoc (p : List (σ × α)) (s s' : σ) (a : α) :
    visited (p ++ [(s, a)]) s' = visited p s ++ [s'] := by simp [visited]

/-! ## Induction along a run -/

/-- **Invariant rule.** -/
theorem Path.inv {I : σ → Prop} {p : List (σ × α)} (h : Path step s₀ p s) (h₀ : I s₀)
    (hstep : ∀ s a s', I s → step s a = some s' → I s') : I s := by
  induction h with
  | nil => exact h₀
  | snoc _ ha ih => exact hstep _ _ _ ih ha

/-- **Invariant rule for the runs whose steps meet `C`.** -/
theorem Path.inv_of {I : σ → Prop} {C : σ → α → Prop} {p : List (σ × α)}
    (h : Path step s₀ p s) (hC : ∀ x ∈ p, C x.1 x.2) (h₀ : I s₀)
    (hstep : ∀ s a s', I s → C s a → step s a = some s' → I s') : I s := by
  induction h with
  | nil => exact h₀
  | snoc _ ha ih =>
    have hlast := hC _ (List.mem_append_right _ (List.mem_singleton_self _))
    exact hstep _ _ _ (ih fun x hx => hC x (List.mem_append_left _ hx)) hlast ha

theorem Reach.inv {I : σ → Prop} (h : Reach step s₀ s) (h₀ : I s₀)
    (hstep : ∀ s a s', I s → step s a = some s' → I s') : I s := by
  obtain ⟨p, hp⟩ := h
  exact hp.inv h₀ hstep

theorem Path.reach {p : List (σ × α)} (h : Path step s₀ p s) : Reach step s₀ s := ⟨p, h⟩

theorem Reach.refl : Reach step s₀ s₀ := ⟨[], .nil⟩

theorem Reach.snoc {s' : σ} {a : α} (h : Reach step s₀ s) (ha : step s a = some s') :
    Reach step s₀ s' := by
  obtain ⟨p, hp⟩ := h
  exact ⟨_, hp.snoc ha⟩

/-- **Simulation rule**: what can be followed at each step can be followed to the end. -/
theorem Reach.simulated {τ β : Type*} {next : τ → β → Option τ} {t₀ : τ} {R : σ → τ → Prop}
    (h : Reach step s₀ s) (h₀ : R s₀ t₀)
    (hstep : ∀ s t a s', Reach next t₀ t → R s t → step s a = some s' →
      ∃ b t', next t b = some t' ∧ R s' t') :
    ∃ t, Reach next t₀ t ∧ R s t := by
  refine h.inv (I := fun s => ∃ t, Reach next t₀ t ∧ R s t) ⟨t₀, .refl, h₀⟩ ?_
  rintro s a s' ⟨t, ht, hR⟩ ha
  obtain ⟨b, t', hb, hR'⟩ := hstep s t a s' ht hR ha
  exact ⟨t', ht.snoc hb, hR'⟩

/-- The visited states are the ends of the beginnings of the run. -/
theorem Path.of_mem_visited {p : List (σ × α)} (h : Path step s₀ p s) :
    ∀ t ∈ visited p s, ∃ q, q <+: p ∧ Path step s₀ q t := by
  induction h with
  | nil =>
    intro t ht
    obtain rfl := List.mem_singleton.1 ht
    exact ⟨[], List.prefix_rfl, .nil⟩
  | snoc hp ha ih =>
    intro t ht
    rw [visited_snoc] at ht
    rcases List.mem_append.1 ht with ht | ht
    · obtain ⟨q, hq, hpath⟩ := ih t ht
      exact ⟨q, hq.trans (List.prefix_append _ _), hpath⟩
    · obtain rfl := List.mem_singleton.1 ht
      exact ⟨_, List.prefix_rfl, hp.snoc ha⟩

/-- A run up to one of its steps. -/
theorem Path.before {p q r : List (σ × α)} {x : σ × α} (h : Path step s₀ p s)
    (hp : p = q ++ x :: r) : Path step s₀ q x.1 := by
  induction h generalizing r with
  | nil => simp at hp
  | @snoc p s s' a hpath ha ih =>
    rcases List.eq_nil_or_concat r with rfl | ⟨r, y, rfl⟩
    · obtain ⟨rfl, hx⟩ := List.append_inj' hp rfl
      obtain rfl : (s, a) = x := List.head_eq_of_cons_eq hx
      exact hpath
    · rw [List.concat_eq_append, ← List.cons_append, ← List.append_assoc] at hp
      exact ih (List.append_inj' hp rfl).1

/-- **A property of all visited states, as a condition on the steps.**  `J` is
    the invariant that carries the good runs, and the condition `C` is exact:
    a step from a good state that breaks `C` ends in a state without `G`. -/
theorem Path.visited_iff {J G : σ → Prop} {C : σ → α → Prop} {p : List (σ × α)}
    (h : Path step s₀ p s) (h₀ : J s₀) (hG : ∀ s, Reach step s₀ s → J s → G s)
    (hstep : ∀ s a s', Reach step s₀ s → J s → C s a → step s a = some s' → J s')
    (hex : ∀ s a s', Reach step s₀ s → J s → ¬ C s a → step s a = some s' → ¬ G s') :
    (∀ t ∈ visited p s, G t) ↔ ∀ x ∈ p, C x.1 x.2 := by
  have key : J s ∧ (∀ t ∈ visited p s, G t) ∧ (∀ x ∈ p, C x.1 x.2) ∨
      ¬ (∀ t ∈ visited p s, G t) ∧ ¬ (∀ x ∈ p, C x.1 x.2) := by
    induction h with
    | nil =>
      refine Or.inl ⟨h₀, fun t ht => ?_, fun x hx => absurd hx (List.not_mem_nil)⟩
      rw [List.mem_singleton.1 ht]; exact hG _ .refl h₀
    | @snoc p s s' a hp ha ih =>
      simp only [visited_snoc, List.forall_mem_append, List.forall_mem_singleton]
      rcases ih with ⟨hJ, hv, hc⟩ | ⟨hv, hc⟩
      · by_cases hCa : C s a
        · have hJ' := hstep s a s' hp.reach hJ hCa ha
          exact Or.inl ⟨hJ', ⟨hv, hG _ (hp.reach.snoc ha) hJ'⟩, hc, hCa⟩
        · exact Or.inr ⟨fun h => hex s a s' hp.reach hJ hCa ha h.2, fun h => hCa h.2⟩
      · exact Or.inr ⟨fun h => hv h.1, fun h => hc h.1⟩
  rcases key with ⟨-, hv, hc⟩ | ⟨hv, hc⟩
  · exact ⟨fun _ => hc, fun _ => hv⟩
  · exact ⟨fun h => absurd h hv, fun h => absurd h hc⟩

/-! ## Replaying a list of actions -/

/-- Run a list of actions. -/
def exec (step : σ → α → Option σ) : σ → List α → Option σ
  | s, [] => some s
  | s, a :: as => (step s a).bind fun s' => exec step s' as

/-- A list of actions that can be run is a run. -/
theorem Path.of_exec {p : List (σ × α)} (h : Path step s₀ p s) :
    ∀ {as : List α} {s' : σ}, Runs.exec step s as = some s' →
      ∃ q, Path step s₀ (p ++ q) s' ∧ q.map Prod.snd = as := by
  intro as
  induction as generalizing p s with
  | nil =>
    rintro s' ⟨⟩
    exact ⟨[], by simpa using h, rfl⟩
  | cons a as ih =>
    intro s' hs'
    obtain ⟨s₁, ha, hrest⟩ := Option.bind_eq_some_iff.1 hs'
    obtain ⟨q, hq, has⟩ := ih (h.snoc ha) hrest
    exact ⟨(s, a) :: q, by simpa using hq, by simp [has]⟩

/-- The steps of a list of actions, as far as it can be run. -/
def trace (step : σ → α → Option σ) : σ → List α → List (σ × α)
  | _, [] => []
  | s, a :: as =>
    (s, a) :: match step s a with
      | none => []
      | some s' => trace step s' as

theorem Path.cons {p : List (σ × α)} {s₁ : σ} {a : α} (ha : step s₀ a = some s₁)
    (h : Path step s₁ p s) : Path step s₀ ((s₀, a) :: p) s := by
  induction h with
  | nil => exact Path.nil.snoc ha
  | snoc _ hb ih => exact ih.snoc hb

/-- A list of actions that can be run is the run of its steps. -/
theorem Path.trace {as : List α} (h : Runs.exec step s₀ as = some s) :
    Path step s₀ (trace step s₀ as) s := by
  induction as generalizing s₀ with
  | nil =>
    obtain rfl := Option.some.inj h
    exact .nil
  | cons a as ih =>
    obtain ⟨s₁, ha, h⟩ := Option.bind_eq_some_iff.1 h
    rw [Runs.trace, ha]
    exact (ih h).cons ha

theorem Reach.of_exec {as : List α} {s' : σ} (h : Reach step s₀ s)
    (he : Runs.exec step s as = some s') : Reach step s₀ s' := by
  obtain ⟨p, hp⟩ := h
  obtain ⟨q, hq, -⟩ := hp.of_exec he
  exact hq.reach

/-! ## Actions that a total system guards -/

section
variable {τ : Type*} {next : τ → α → τ} {C G : τ → α → Prop} {J P : τ → Prop} {t : τ}
  {as : List α}

/-- Each of the actions meets `C` where it is taken. -/
def Guarded (next : τ → α → τ) (C : τ → α → Prop) : τ → List α → Prop
  | _, [] => True
  | t, a :: as => C t a ∧ Guarded next C (next t a) as

/-- **Refinement rule**: the steps that the abstract system allows can be taken,
    and lead to its states. -/
theorem exec_refines {R : σ → τ → Prop}
    (hstep : ∀ s t a, R s t → G t a → ∃ s', step s a = some s' ∧ R s' (next t a)) :
    ∀ {as : List α} {s : σ} {t : τ}, R s t → Guarded next G t as →
      ∃ s', exec step s as = some s' ∧ R s' (as.foldl next t) := by
  intro as
  induction as with
  | nil => exact fun hR _ => ⟨_, rfl, hR⟩
  | cons a as ih =>
    rintro s t hR ⟨ha, has⟩
    obtain ⟨s₁, hs₁, hR₁⟩ := hstep s t a hR ha
    obtain ⟨s', hs', hR'⟩ := ih hR₁ has
    exact ⟨s', by rw [exec, hs₁, Option.bind_some, hs'], hR'⟩

/-- **A property of all states on the way, as a condition on the actions**, if
    it is exact on each of them. -/
theorem forall_scanl_iff (hJ : ∀ t a, J t → G t a → J (next t a))
    (hstep : ∀ t a, J t → P t → G t a → (P (next t a) ↔ C t a)) :
    ∀ {as : List α} {t : τ}, J t → P t → Guarded next G t as →
      ((∀ u ∈ as.scanl next t, P u) ↔ Guarded next C t as) := by
  intro as
  induction as with
  | nil =>
    intro t _ hP _
    simpa [Guarded] using hP
  | cons a as ih =>
    rintro t ht hP ⟨ha, has⟩
    rw [List.scanl_cons, List.forall_mem_cons, Guarded, and_iff_right hP]
    by_cases hP' : P (next t a)
    · rw [ih (hJ t a ht ha) hP' has, and_iff_right ((hstep t a ht hP ha).1 hP')]
    · constructor
      · intro hall
        cases as with
        | nil => exact absurd (hall (next t a) (by simp)) hP'
        | cons b as => exact absurd (hall (next t a) (by simp)) hP'
      · exact fun h => absurd ((hstep t a ht hP ha).2 h.1) hP'

end

end Runs
