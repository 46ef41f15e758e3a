/-
  Searching a pattern in a list: first occurrences, separators, lines.

  * `find pat s` is the position of the first occurrence of `pat` in `s`;
    `IsFirst pat s a b` says that `s = a ++ pat ++ b` is the decomposition at
    that occurrence (`find_eq_some_iff`, `find_eq_none_iff`);
  * an `Unbordered` pattern does not overlap itself, so that its occurrences
    in `a ++ pat ++ b`, for `a` free of it, start after `a` (`isFirst`);
  * `IsSplit sep s ps`: the pieces `ps` of `s` between the separators; they
    are unique for an unbordered separator (`IsSplit.unique`), and a line
    equal to `w` is found where it stands (`isFirst_line`);
  * `EndsOnce pat s`: `pat` occurs in `s` exactly once, at its end.
-/
import Mathlib.Data.List.Infix
import Mathlib.Tactic.TypeStar

namespace Search

variable {α : Type*}

/-- The first occurrence of `pat` in `s` stands between `a` and `b`. -/
def IsFirst (pat s a b : List α) : Prop :=
  s = a ++ pat ++ b ∧ ∀ a' b', s = a' ++ pat ++ b' → a.length ≤ a'.length

/-- `pat` occurs in `s` exactly once, as its last elements. -/
def EndsOnce (pat s : List α) : Prop := ∃ a, IsFirst pat s a []

namespace IsFirst
variable {pat s a b a' b' : List α}

theorem eq (h : IsFirst pat s a b) : s = a ++ pat ++ b := h.1

theorem unique (h : IsFirst pat s a b) (h' : IsFirst pat s a' b') : a = a' ∧ b = b' := by
  have hlen : a.length = a'.length := Nat.le_antisymm (h.2 _ _ h'.1) (h'.2 _ _ h.1)
  have heq : a ++ (pat ++ b) = a' ++ (pat ++ b') := by
    rw [← List.append_assoc, ← List.append_assoc, ← h.1, ← h'.1]
  obtain ⟨rfl, hr⟩ := List.append_inj heq hlen
  exact ⟨rfl, List.append_cancel_left hr⟩

/-- What stands before the first occurrence is free of the pattern. -/
theorem free (h : IsFirst pat s a b) (hp : pat ≠ []) : ¬ pat <:+: a := by
  rintro ⟨u, v, rfl⟩
  have := h.2 u (v ++ pat ++ b) (by rw [h.1]; simp)
  have := List.length_pos_iff.2 hp
  simp only [List.length_append] at *
  omega

/-- More elements at the end do not change the first occurrence. -/
theorem append (h : IsFirst pat s a b) (t : List α) : IsFirst pat (s ++ t) a (b ++ t) := by
  refine ⟨by rw [h.1]; simp, fun a' b' h' => ?_⟩
  by_contra hlt
  have hlen := congrArg List.length h.1
  simp only [List.length_append] at hlen
  obtain ⟨r, hr⟩ : a' ++ pat <+: s := by
    refine List.prefix_of_prefix_length_le ⟨b', h'.symm⟩ (List.prefix_append s t) ?_
    rw [List.length_append]
    omega
  exact hlt (h.2 a' r hr.symm)

/-- Nor do fewer, behind it. -/
theorem of_append {t : List α} (h : IsFirst pat (s ++ t) a (b ++ t)) : IsFirst pat s a b := by
  have heq : s ++ t = (a ++ pat ++ b) ++ t := by rw [h.1]; simp
  refine ⟨List.append_cancel_right heq, fun a' b' h' => h.2 a' (b' ++ t) ?_⟩
  rw [h']
  simp

end IsFirst

/-- A pattern that ends the list ends it once iff each occurrence is the last. -/
theorem endsOnce_iff {pat s : List α} :
    EndsOnce pat s ↔ pat <:+ s ∧ ∀ a b, s = a ++ pat ++ b → b = [] := by
  constructor
  · rintro ⟨a, ha⟩
    refine ⟨⟨a, by simpa using ha.1.symm⟩, fun a' b' h => ?_⟩
    have h1 := congrArg List.length ha.1
    have h2 := congrArg List.length h
    have h3 := ha.2 a' b' h
    simp only [List.length_append, List.length_nil] at h1 h2
    exact List.eq_nil_of_length_eq_zero (by omega)
  · rintro ⟨⟨a, rfl⟩, h⟩
    refine ⟨a, by simp, fun a' b' hab => ?_⟩
    have hb := h a' b' hab
    have := congrArg List.length hab
    simp only [hb, List.length_append, List.length_nil] at this
    omega

theorem EndsOnce.suffix {pat s : List α} (h : EndsOnce pat s) : pat <:+ s := (endsOnce_iff.1 h).1

/-! ## The search -/

theorem isFirst_start {pat s : List α} (h : pat <+: s) :
    IsFirst pat s [] (s.drop pat.length) :=
  ⟨by simpa using List.prefix_append_drop h, fun _ _ _ => Nat.zero_le _⟩

/-- Past a head at which `pat` does not start, its first occurrence is that in the tail. -/
theorem isFirst_cons {pat s a b : List α} {c : α} (hc : ¬ pat <+: c :: s) :
    IsFirst pat (c :: s) (c :: a) b ↔ IsFirst pat s a b := by
  constructor
  · rintro ⟨he, hm⟩
    refine ⟨by simpa using he, fun a' b' h => ?_⟩
    have := hm (c :: a') b' (by simp [h])
    simpa using this
  · rintro ⟨he, hm⟩
    refine ⟨by simp [he], fun a' b' h => ?_⟩
    cases a' with
    | nil => exact absurd ⟨b', by simpa using h.symm⟩ hc
    | cons d a' =>
      simp only [List.cons_append, List.cons.injEq] at h
      simpa using hm a' b' h.2

section
variable [DecidableEq α]

/-- The position of the first occurrence of `pat` in `s`. -/
def find (pat : List α) : List α → Option ℕ
  | [] => if pat = [] then some 0 else none
  | c :: s => if pat <+: c :: s then some 0 else (find pat s).map (· + 1)

theorem find_eq_none_iff {pat : List α} : ∀ {s : List α}, find pat s = none ↔ ¬ pat <:+: s
  | [] => by
    by_cases h : pat = []
    · simp [find, h]
    · simp [find, h, List.infix_nil]
  | c :: s => by
    rw [find, List.infix_cons_iff]
    by_cases h : pat <+: c :: s
    · simp [h]
    · simp [h, find_eq_none_iff]

theorem find_eq_some_iff {pat : List α} {k : ℕ} :
    ∀ {s : List α}, find pat s = some k ↔ ∃ a b, IsFirst pat s a b ∧ a.length = k
  | [] => by
    by_cases h : pat = []
    · subst h
      constructor
      · intro hk
        exact ⟨[], [], ⟨rfl, fun _ _ _ => Nat.zero_le _⟩, by simpa [find] using hk⟩
      · rintro ⟨a, b, ⟨he, -⟩, rfl⟩
        simp only [List.append_nil, List.nil_eq, List.append_eq_nil_iff] at he
        simp [find, he.1]
    · constructor
      · intro hk; simp [find, h] at hk
      · rintro ⟨a, b, ⟨he, -⟩, -⟩
        simp only [List.nil_eq, List.append_eq_nil_iff] at he
        exact absurd he.1.2 h
  | c :: s => by
    rw [find]
    split_ifs with h
    · constructor
      · rintro ⟨⟩
        exact ⟨[], _, isFirst_start h, rfl⟩
      · rintro ⟨a, b, hf, rfl⟩
        rw [← ((isFirst_start h).unique hf).1]; rfl
    · rw [Option.map_eq_some_iff]
      constructor
      · rintro ⟨j, hj, rfl⟩
        obtain ⟨a, b, hf, rfl⟩ := find_eq_some_iff.1 hj
        exact ⟨c :: a, b, (isFirst_cons h).2 hf, rfl⟩
      · rintro ⟨a, b, hf, rfl⟩
        cases a with
        | nil => exact absurd ⟨b, by simpa using hf.1.symm⟩ h
        | cons d a =>
          obtain rfl : d = c := by have := hf.1; simp at this; exact this.1.symm
          exact ⟨a.length, find_eq_some_iff.2 ⟨a, b, (isFirst_cons h).1 hf, rfl⟩, rfl⟩

theorem IsFirst.find_eq {pat s a b : List α} (h : IsFirst pat s a b) :
    find pat s = some a.length := find_eq_some_iff.2 ⟨a, b, h, rfl⟩

/-- That a list ends with its only occurrence of `pat` is found by searching. -/
theorem endsOnce_iff_find {pat s : List α} : EndsOnce pat s ↔
    pat.length ≤ s.length ∧ find pat s = some (s.length - pat.length) := by
  constructor
  · rintro ⟨a, h⟩
    have hl := congrArg List.length h.eq
    simp only [List.length_append, List.length_nil] at hl
    exact ⟨by omega, by rw [h.find_eq, hl]; congr 1; omega⟩
  · rintro ⟨hle, hf⟩
    obtain ⟨a, b, h, ha⟩ := find_eq_some_iff.1 hf
    have hl := congrArg List.length h.eq
    simp only [List.length_append] at hl
    obtain rfl : b = [] := List.eq_nil_of_length_eq_zero (by omega)
    exact ⟨a, h⟩

instance (pat s : List α) : Decidable (EndsOnce pat s) :=
  decidable_of_iff _ endsOnce_iff_find.symm

/-- An occurrence of the pattern has a first one. -/
theorem exists_isFirst {pat s : List α} (h : pat <:+: s) : ∃ a b, IsFirst pat s a b := by
  rcases hf : find pat s with _ | k
  · exact absurd h (find_eq_none_iff.1 hf)
  · obtain ⟨a, b, hab, -⟩ := find_eq_some_iff.1 hf
    exact ⟨a, b, hab⟩

end

/-! ## Patterns that do not overlap themselves -/

/-- No proper end of the pattern is a beginning of it. -/
def Unbordered (pat : List α) : Prop :=
  pat ≠ [] ∧ ∀ k < pat.length, 0 < k → ¬ pat.drop k <+: pat

instance [DecidableEq α] (pat : List α) : Decidable (Unbordered pat) :=
  inferInstanceAs (Decidable (_ ∧ _))

namespace Unbordered
variable {pat a b a' b' : List α}

/-- Two occurrences do not overlap. -/
theorem far (hu : Unbordered pat) (h : a ++ pat ++ b = a' ++ pat ++ b')
    (hlt : a.length < a'.length) : a.length + pat.length ≤ a'.length := by
  by_contra hcon
  have hk : a'.length - a.length < pat.length := by omega
  refine hu.2 (a'.length - a.length) hk (by omega) ?_
  have hl : (a ++ pat ++ b).drop a'.length = pat.drop (a'.length - a.length) ++ b := by
    rw [List.append_assoc, List.drop_append, List.drop_of_length_le (by omega), List.nil_append,
      List.drop_append_of_le_length (by omega)]
  have hr : (a' ++ pat ++ b').drop a'.length = pat ++ b' := by
    rw [List.append_assoc, List.drop_left]
  have hd : pat.drop (a'.length - a.length) ++ b = pat ++ b' := by rw [← hl, h, hr]
  refine List.prefix_of_prefix_length_le ⟨b, hd⟩ (List.prefix_append _ _) ?_
  simp only [List.length_drop]; omega

/-- **The first occurrence after a list free of the pattern.** -/
theorem isFirst (hu : Unbordered pat) (ha : ¬ pat <:+: a) (b : List α) :
    IsFirst pat (a ++ pat ++ b) a b := by
  refine ⟨rfl, fun a' b' h => ?_⟩
  by_contra hcon
  have hlt : a'.length < a.length := by omega
  have hfar := hu.far h.symm hlt
  have hpre : a <+: a ++ pat ++ b := by rw [List.append_assoc]; exact List.prefix_append _ _
  obtain ⟨v, rfl⟩ : a' ++ pat <+: a :=
    List.prefix_of_prefix_length_le ⟨b', h.symm⟩ hpre (by simpa using hfar)
  exact ha ⟨a', v, rfl⟩

end Unbordered

/-! ## Pieces between separators -/

/-- `ps` are the pieces of `s` between the occurrences of `sep`. -/
structure IsSplit (sep s : List α) (ps : List (List α)) : Prop where
  ne : ps ≠ []
  free : ∀ p ∈ ps, ¬ sep <:+: p
  join : sep.intercalate ps = s

theorem isSplit_singleton {sep s : List α} (h : ¬ sep <:+: s) : IsSplit sep s [s] :=
  ⟨by simp, by simpa using h, by simp⟩

theorem IsSplit.cons {sep s p : List α} {ps : List (List α)} (hp : ¬ sep <:+: p)
    (h : IsSplit sep s ps) : IsSplit sep (p ++ sep ++ s) (p :: ps) := by
  refine ⟨by simp, by simpa using ⟨hp, h.free⟩, ?_⟩
  cases ps with
  | nil => exact absurd rfl h.ne
  | cons q qs => rw [List.intercalate_cons_cons, h.join]

/-- **The pieces are unique.** -/
theorem IsSplit.unique {sep : List α} (hu : Unbordered sep) :
    ∀ {ps qs : List (List α)} {s : List α}, IsSplit sep s ps → IsSplit sep s qs → ps = qs
  | [], _, _, h, _ => absurd rfl h.ne
  | _, [], _, _, h => absurd rfl h.ne
  | [p], [q], s, h, h' => by
    have := h.join.trans h'.join.symm
    simpa using this
  | [p], q :: q' :: qs, s, h, h' => by
    have he := h.join.trans h'.join.symm
    rw [List.intercalate_cons_cons] at he
    refine absurd ?_ (h.free p (by simp))
    exact ⟨q, _, by simpa using he.symm⟩
  | p :: p' :: ps, [q], s, h, h' => by
    have he := h'.join.trans h.join.symm
    rw [List.intercalate_cons_cons] at he
    refine absurd ?_ (h'.free q (by simp))
    exact ⟨p, _, by simpa using he.symm⟩
  | p :: p' :: ps, q :: q' :: qs, s, h, h' => by
    have he := h.join.trans h'.join.symm
    rw [List.intercalate_cons_cons, List.intercalate_cons_cons] at he
    have hp := hu.isFirst (h.free p (by simp)) (sep.intercalate (p' :: ps))
    have hq := hu.isFirst (h'.free q (by simp)) (sep.intercalate (q' :: qs))
    rw [← he] at hq
    obtain ⟨rfl, hrest⟩ := hp.unique hq
    have hps : IsSplit sep (sep.intercalate (p' :: ps)) (p' :: ps) :=
      ⟨by simp, fun x hx => h.free x (List.mem_cons_of_mem _ hx), rfl⟩
    have hqs : IsSplit sep (sep.intercalate (p' :: ps)) (q' :: qs) :=
      ⟨by simp, fun x hx => h'.free x (List.mem_cons_of_mem _ hx), hrest.symm⟩
    rw [IsSplit.unique hu hps hqs]

/-- **The first line equal to `w`.**  In `p`, the lines `ps`, the line `w` and
    the rest `d`, the first occurrence of `w` between two separators is that
    line, if none of the lines `ps` equals `w`. -/
theorem isFirst_line {sep w : List α} (hu : Unbordered sep) (hw : ¬ sep <:+: w) (d : List α) :
    ∀ (ps : List (List α)) (p : List α), ¬ sep <:+: p → (∀ q ∈ ps, ¬ sep <:+: q ∧ q ≠ w) →
      IsFirst (sep ++ w ++ sep) (sep.intercalate (p :: ps) ++ (sep ++ w ++ sep) ++ d)
        (sep.intercalate (p :: ps)) d
  | [], p, hp, _ => by
    refine ⟨rfl, fun a' b' h => ?_⟩
    have hf := hu.isFirst hp (w ++ sep ++ d)
    have := hf.2 a' (w ++ sep ++ b') (by simpa [List.append_assoc] using h)
    simpa using this
  | q :: qs, p, hp, hps => by
    have ih := isFirst_line hu hw d qs q (hps q (by simp)).1
      fun x hx => hps x (List.mem_cons_of_mem _ hx)
    refine ⟨rfl, fun a' b' h => ?_⟩
    rw [List.intercalate_cons_cons] at h ⊢
    have h1 : p ++ sep ++ (sep.intercalate (q :: qs) ++ (sep ++ w ++ sep) ++ d) =
        a' ++ sep ++ (w ++ sep ++ b') := by simpa [List.append_assoc] using h
    have hle := (hu.isFirst hp _).2 a' _ h1
    rcases Nat.lt_or_eq_of_le hle with hlt | heq
    · -- the occurrence lies after the first separator
      have hfar := hu.far h1 hlt
      obtain ⟨a'', rfl⟩ : p ++ sep <+: a' :=
        List.prefix_of_prefix_length_le ⟨_, h1⟩
          (by rw [List.append_assoc]; exact List.prefix_append _ _) (by simpa using hfar)
      have h2 : sep.intercalate (q :: qs) ++ (sep ++ w ++ sep) ++ d =
          a'' ++ (sep ++ w ++ sep) ++ b' := by
        have h3 : p ++ sep ++ (sep.intercalate (q :: qs) ++ (sep ++ w ++ sep) ++ d) =
            p ++ sep ++ (a'' ++ (sep ++ w ++ sep) ++ b') := by simpa [List.append_assoc] using h1
        exact List.append_cancel_left h3
      have := ih.2 a'' b' h2
      simp only [List.length_append] at *
      omega
    · -- the occurrence is at the first separator: then the line `q` is `w`
      exfalso
      obtain ⟨rfl, hr⟩ := List.append_inj (by simpa [List.append_assoc] using h1) heq
      have hr' : sep.intercalate (q :: qs) ++ (sep ++ w ++ sep) ++ d = w ++ sep ++ b' := by
        have hr1 : sep ++ (sep.intercalate (q :: qs) ++ (sep ++ w ++ sep) ++ d) =
            sep ++ (w ++ sep ++ b') := by simpa [List.append_assoc] using hr
        exact List.append_cancel_left hr1
      have hfw := hu.isFirst hw b'
      have hfq : ∃ y, IsFirst sep (w ++ sep ++ b') q y := by
        rw [← hr']
        cases qs with
        | nil =>
          refine ⟨w ++ sep ++ d, ?_⟩
          have := hu.isFirst (hps q (by simp)).1 (w ++ sep ++ d)
          simpa [List.append_assoc] using this
        | cons q' qs =>
          rw [List.intercalate_cons_cons]
          refine ⟨sep.intercalate (q' :: qs) ++ (sep ++ w ++ sep) ++ d, ?_⟩
          have := hu.isFirst (hps q (by simp)).1
            (sep.intercalate (q' :: qs) ++ (sep ++ w ++ sep) ++ d)
          simpa [List.append_assoc] using this
      obtain ⟨y, hfq⟩ := hfq
      exact (hps q (by simp)).2 (hfq.unique hfw).1

end Search
