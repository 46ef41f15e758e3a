/-
  Reading a list line by line, and cutting a line.

  * `next nl n s` reads as `fgets` does: up to and with the first `nl`, and not
    more than `n` elements; `chunks nl n s` are the results of reading on to the
    end (`chunks_line`, `flatten_chunks`, `mem_chunks`);
  * `cut sp stop was s` cuts `s` at the first element that `stop` holds of, where
    `stop` is told whether the element before is of the kind `sp`
    (`cut_append`, `cut_of_passes`, `passes_cut`).
-/
import Mathlib.Data.List.DropRight
import Mathlib.Data.Nat.Notation

namespace Lines

variable {α : Type}

/-! ## Lines -/

section
variable [DecidableEq α] (nl : α)

/-- At most `n` elements, up to and with the first `nl`; and what is left. -/
def next : ℕ → List α → List α × List α
  | 0, s => ([], s)
  | _ + 1, [] => ([], [])
  | n + 1, a :: s => if a = nl then ([a], s) else (a :: (next n s).1, (next n s).2)

variable {nl} {n : ℕ} {s l : List α}

theorem next_append : ∀ (n : ℕ) (s : List α), (next nl n s).1 ++ (next nl n s).2 = s
  | 0, _ => rfl
  | _ + 1, [] => rfl
  | n + 1, a :: s => by
    rw [next]
    split
    · rfl
    · rw [List.cons_append, next_append n s]

theorem length_next_le : ∀ (n : ℕ) (s : List α), (next nl n s).1.length ≤ n
  | 0, _ => Nat.le_refl _
  | _ + 1, [] => Nat.zero_le _
  | n + 1, a :: s => by
    rw [next]
    split
    · exact Nat.le_add_left 1 n
    · exact Nat.succ_le_succ (length_next_le n s)

/-- Something is read, unless there is nothing. -/
theorem next_ne_nil (hn : n ≠ 0) (hs : s ≠ []) : (next nl n s).1 ≠ [] := by
  obtain ⟨n, rfl⟩ := Nat.exists_eq_succ_of_ne_zero hn
  obtain ⟨a, s, rfl⟩ := List.exists_cons_of_ne_nil hs
  rw [next]
  split
  · exact List.cons_ne_nil _ _
  · exact List.cons_ne_nil _ _

theorem length_next_lt (hn : n ≠ 0) (hs : s ≠ []) : (next nl n s).2.length < s.length := by
  have hlen : ((next nl n s).1 ++ (next nl n s).2).length = s.length := by rw [next_append]
  have hpos : 0 < (next nl n s).1.length := List.length_pos_iff.2 (next_ne_nil hn hs)
  rw [List.length_append] at hlen
  omega

/-- `nl` is read as the last element only. -/
theorem next_line : ∀ (n : ℕ) (s : List α),
    ∃ l, nl ∉ l ∧ ((next nl n s).1 = l ∨ (next nl n s).1 = l ++ [nl])
  | 0, _ => ⟨[], List.not_mem_nil, .inl rfl⟩
  | _ + 1, [] => ⟨[], List.not_mem_nil, .inl rfl⟩
  | n + 1, a :: s => by
    rw [next]
    split
    · rename_i ha
      exact ⟨[], List.not_mem_nil, .inr (by rw [ha]; rfl)⟩
    · rename_i ha
      obtain ⟨l, hl, hnext⟩ := next_line n s
      refine ⟨a :: l, ?_, ?_⟩
      · rw [List.mem_cons, not_or]
        exact ⟨fun h => ha h.symm, hl⟩
      · rcases hnext with h | h
        · exact .inl (by rw [h])
        · exact .inr (by rw [h]; rfl)

/-- A line that is short enough is read whole. -/
theorem next_of_line : ∀ {n : ℕ} {l : List α}, nl ∉ l → l.length < n →
    next nl n (l ++ nl :: s) = (l ++ [nl], s)
  | 0, _, _, hlen => absurd hlen (Nat.not_lt_zero _)
  | _ + 1, [], _, _ => by rw [List.nil_append, next, if_pos rfl, List.nil_append]
  | n + 1, a :: l, hl, hlen => by
    rw [List.mem_cons, not_or] at hl
    rw [List.cons_append, next, if_neg fun h => hl.1 h.symm,
      next_of_line hl.2 (Nat.lt_of_succ_lt_succ hlen)]
    rfl

/-- What one reading after the other gives, to the end. -/
def chunks (nl : α) (n : ℕ) (s : List α) : List (List α) :=
  if h : n = 0 ∨ s = [] then [] else
    have : (next nl n s).2.length < s.length := length_next_lt (not_or.1 h).1 (not_or.1 h).2
    (next nl n s).1 :: chunks nl n (next nl n s).2
termination_by s.length

theorem chunks_nil : chunks nl n [] = [] := by
  rw [chunks, dif_pos (.inr rfl)]

theorem chunks_cons (hn : n ≠ 0) (hs : s ≠ []) :
    chunks nl n s = (next nl n s).1 :: chunks nl n (next nl n s).2 := by
  rw [chunks, dif_neg (not_or.2 ⟨hn, hs⟩)]

variable (nl) in
/-- Reading on, by induction on what is left. -/
theorem chunks_induction {P : List α → Prop} (hn : n ≠ 0) (nil : P [])
    (cons : ∀ s, s ≠ [] → P (next nl n s).2 → P s) (s : List α) : P s := by
  induction hlen : s.length using Nat.strong_induction_on generalizing s with
  | _ k ih =>
    by_cases hs : s = []
    · rw [hs]
      exact nil
    · exact cons s hs (ih _ (by rw [← hlen]; exact length_next_lt hn hs) _ rfl)

/-- **Nothing is lost.** -/
theorem flatten_chunks (hn : n ≠ 0) : (chunks nl n s).flatten = s := by
  induction s using chunks_induction nl hn with
  | nil => rw [chunks_nil]; rfl
  | cons s hs ih => rw [chunks_cons hn hs, List.flatten_cons, ih, next_append]

/-- What is read at a time. -/
theorem mem_chunks (hn : n ≠ 0) (h : l ∈ chunks nl n s) :
    l.length ≤ n ∧ ∃ l', nl ∉ l' ∧ (l = l' ∨ l = l' ++ [nl]) := by
  induction s using chunks_induction nl hn with
  | nil =>
    rw [chunks_nil] at h
    cases h
  | cons s hs ih =>
    rw [chunks_cons hn hs] at h
    rcases List.mem_cons.1 h with rfl | h
    · exact ⟨length_next_le n s, next_line n s⟩
    · exact ih h

/-- A line that is short enough is read at a time. -/
theorem chunks_line (hl : nl ∉ l) (hlen : l.length < n) :
    chunks nl n (l ++ nl :: s) = (l ++ [nl]) :: chunks nl n s := by
  rw [chunks_cons (by omega) (by simp), next_of_line hl hlen]

/-- **Short lines are read as they stand.** -/
theorem chunks_lines {ls : List (List α)} (h : ∀ l ∈ ls, nl ∉ l ∧ l.length < n) (s : List α) :
    chunks nl n ((ls.map (· ++ [nl])).flatten ++ s) = ls.map (· ++ [nl]) ++ chunks nl n s := by
  induction ls with
  | nil => rfl
  | cons l ls ih =>
    have hl := h l List.mem_cons_self
    rw [List.map_cons, List.flatten_cons, List.append_assoc, List.append_assoc,
      List.singleton_append, chunks_line hl.1 hl.2, ih fun l' hl' => h l' (List.mem_cons_of_mem _ hl')]
    rfl

end

/-! ## Cuts -/

section
variable (sp : α → Bool) (stop : Bool → α → Bool)

/-- What comes before the first stop, and what is from there on. -/
def cut : Bool → List α → List α × List α
  | _, [] => ([], [])
  | was, a :: s =>
    if stop was a then ([], a :: s) else (a :: (cut (sp a) s).1, (cut (sp a) s).2)

/-- Whether the element before is of the kind `sp`, behind `s`. -/
def after : Bool → List α → Bool
  | was, [] => was
  | _, a :: s => after (sp a) s

/-- There is no stop. -/
def Passes : Bool → List α → Prop
  | _, [] => True
  | was, a :: s => stop was a = false ∧ Passes (sp a) s

instance decidablePasses : ∀ (was : Bool) (s : List α), Decidable (Passes sp stop was s)
  | _, [] => .isTrue trivial
  | was, a :: s =>
    have := decidablePasses (sp a) s
    inferInstanceAs (Decidable (stop was a = false ∧ Passes sp stop (sp a) s))

variable {sp stop} {was : Bool} {s t : List α} {a : α}

theorem cut_append : ∀ (was : Bool) (s : List α),
    (cut sp stop was s).1 ++ (cut sp stop was s).2 = s
  | _, [] => rfl
  | was, a :: s => by
    rw [cut]
    split
    · rfl
    · rw [List.cons_append, cut_append (sp a) s]

theorem passes_append : ∀ {was : Bool} {s : List α},
    Passes sp stop was (s ++ t) ↔ Passes sp stop was s ∧ Passes sp stop (after sp was s) t
  | _, [] => by simp [Passes, after]
  | was, a :: s => by
    rw [List.cons_append, Passes, Passes, after, passes_append, and_assoc]

/-- What is cut off at the front has no stop. -/
theorem passes_cut : ∀ (was : Bool) (s : List α), Passes sp stop was (cut sp stop was s).1
  | _, [] => trivial
  | was, a :: s => by
    rw [cut]
    split
    · trivial
    · rename_i h
      exact ⟨by simpa using h, passes_cut (sp a) s⟩

/-- The cut is at a stop. -/
theorem stop_of_cut : ∀ {was : Bool} {s : List α}, (cut sp stop was s).2 = a :: t →
    stop (after sp was (cut sp stop was s).1) a = true
  | _, [], h => by cases h
  | was, b :: s, h => by
    rw [cut] at h ⊢
    split at h
    · rename_i hb
      rw [if_pos hb]
      obtain ⟨rfl, rfl⟩ := List.cons.inj h
      exact hb
    · rename_i hb
      rw [if_neg hb]
      exact stop_of_cut h

/-- **The cut is where the first stop is.** -/
theorem cut_of_passes (hs : Passes sp stop was s) (ha : stop (after sp was s) a = true) :
    cut sp stop was (s ++ a :: t) = (s, a :: t) := by
  induction s generalizing was with
  | nil => rw [List.nil_append, cut, if_pos (by exact ha)]
  | cons b s ih =>
    rw [List.cons_append, cut, if_neg (by rw [hs.1]; exact Bool.false_ne_true), ih hs.2 ha]

/-- Without a stop nothing is cut off. -/
theorem cut_of_passes_all (hs : Passes sp stop was s) : cut sp stop was s = (s, []) := by
  induction s generalizing was with
  | nil => rfl
  | cons b s ih => rw [cut, if_neg (by rw [hs.1]; exact Bool.false_ne_true), ih hs.2]

/-- No stop in the whole, none in its beginning. -/
theorem Passes.of_isPrefix (h : Passes sp stop was t) (hst : s <+: t) : Passes sp stop was s := by
  obtain ⟨r, rfl⟩ := hst
  exact (passes_append.1 h).1

end

/-! ## Trimming -/

section
variable {sp : α → Bool} {s t : List α}

/-- Nothing of the kind `sp` at either end. -/
def Trimmed (sp : α → Bool) (s : List α) : Prop := s.dropWhile sp = s ∧ s.rdropWhile sp = s

/-- Trimming both ends, in either order of the source. -/
theorem trimmed_trim (s : List α) : Trimmed sp ((s.rdropWhile sp).dropWhile sp) := by
  refine ⟨List.dropWhile_idempotent sp _, List.rdropWhile_eq_self_iff.2 fun hl hlast => ?_⟩
  have hne : s.rdropWhile sp ≠ [] := by
    intro h
    rw [h] at hl
    exact hl rfl
  refine List.rdropWhile_last_not sp s hne ?_
  have hsuffix := List.dropWhile_suffix (l := s.rdropWhile sp) sp
  rw [← hsuffix.getLast hl]
  exact hlast

/-- A beginning starts as the whole does. -/
theorem dropWhile_of_isPrefix (hst : s <+: t) (ht : t.dropWhile sp = t) : s.dropWhile sp = s := by
  cases s with
  | nil => rfl
  | cons a s =>
    obtain ⟨r, rfl⟩ := hst
    have ha : ¬ sp a = true := by
      intro ha
      have hlen := congrArg List.length ht
      rw [List.cons_append, List.dropWhile_cons_of_pos ha] at hlen
      have := (List.dropWhile_suffix (l := s ++ r) sp).length_le
      rw [List.length_cons] at hlen
      omega
    exact List.dropWhile_cons_of_neg ha

/-- Behind something that stays, trimming at the end sees only what is behind it. -/
theorem rdropWhile_append (h : t.rdropWhile sp ≠ []) :
    (s ++ t).rdropWhile sp = s ++ t.rdropWhile sp := by
  induction t using List.reverseRecOn with
  | nil => exact absurd (List.rdropWhile_nil sp) h
  | append_singleton t a ih =>
    rw [← List.append_assoc]
    by_cases ha : sp a
    · rw [List.rdropWhile_concat_pos _ _ _ ha] at h ⊢
      rw [List.rdropWhile_concat_pos _ _ _ ha]
      exact ih h
    · rw [List.rdropWhile_concat_neg _ _ _ ha, List.rdropWhile_concat_neg _ _ _ ha,
        List.append_assoc]

/-- What is trimmed off at the end. -/
theorem rdropWhile_append_of_all (h : ∀ a ∈ t, sp a = true) :
    (s ++ t).rdropWhile sp = s.rdropWhile sp := by
  induction t using List.reverseRecOn with
  | nil => rw [List.append_nil]
  | append_singleton t a ih =>
    rw [← List.append_assoc, List.rdropWhile_concat_pos _ _ _ (h a (by simp))]
    exact ih fun b hb => h b (by simp [hb])

end

end Lines
