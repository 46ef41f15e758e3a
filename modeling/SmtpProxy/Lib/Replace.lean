/-
  Replacing a pattern in a list, and lines ended by one element.

  * `replace pat rep s` replaces the occurrences of `pat` in `s`, from the left
    and without overlap; the pieces of `s` between them stay (`replace_of_isSplit`);
  * `exists_isSplit`: a list has pieces, for every separator;
  * `stuff d` doubles the element `d` at the start of a line, `strip d` drops it:
    replacing `c, d` by `c, d, d` stuffs every line but the first
    (`replace_lines`).
-/
import SmtpProxy.Lib.Search

namespace Search

variable {α : Type*}

/-! ## Pieces exist -/

theorem exists_isSplit [DecidableEq α] {sep : List α} (hsep : sep ≠ []) (s : List α) :
    ∃ ps, IsSplit sep s ps := by
  induction hn : s.length using Nat.strong_induction_on generalizing s with
  | _ n ih =>
    by_cases h : sep <:+: s
    · obtain ⟨a, b, hab⟩ := exists_isFirst h
      have hlt : b.length < n := by
        have h1 := congrArg List.length hab.eq
        have h2 := List.length_pos_iff.2 hsep
        simp only [List.length_append] at h1
        omega
      obtain ⟨ps, hps⟩ := ih b.length hlt b rfl
      refine ⟨a :: ps, ?_⟩
      rw [hab.eq]
      exact hps.cons (hab.free hsep)
    · exact ⟨[s], isSplit_singleton h⟩

/-- The pieces for a separator of one element do not have it. -/
theorem notIn_singleton {c : α} {s : List α} : ¬ [c] <:+: s ↔ c ∉ s := by
  refine not_congr ⟨fun h => h.subset (by simp), fun h => ?_⟩
  obtain ⟨a, b, rfl⟩ := List.append_of_mem h
  exact ⟨a, b, by simp⟩

/-- What joined lines start with, the first line does. -/
theorem singleton_prefix_lines {c d : α} (hcd : c ≠ d) (l : List α) (ls : List (List α)) :
    [d] <+: [c].intercalate (l :: ls) ↔ [d] <+: l := by
  cases l with
  | nil =>
    cases ls with
    | nil => simp
    | cons y ys => simp [List.intercalate_cons_cons, hcd.symm]
  | cons x l =>
    rw [List.intercalate_cons_cons_left, List.cons_prefix_cons, List.cons_prefix_cons]
    simp

/-! ## Lines that end with a mark -/

theorem intercalate_append {sep : List α} : ∀ {ps qs : List (List α)}, ps ≠ [] → qs ≠ [] →
    sep.intercalate (ps ++ qs) = sep.intercalate ps ++ sep ++ sep.intercalate qs
  | [], _, h, _ => absurd rfl h
  | _, [], _, h => absurd rfl h
  | [p], q :: qs, _, _ => by
    rw [List.singleton_append, List.intercalate_cons_cons, List.intercalate_singleton]
  | p :: p' :: ps, q :: qs, _, h => by
    rw [List.cons_append, List.cons_append, List.intercalate_cons_cons, ← List.cons_append,
      intercalate_append (List.cons_ne_nil p' ps) h, List.intercalate_cons_cons]
    simp

/-- A last line `w` with its separators. -/
theorem intercalate_mark {sep w : List α} {ps : List (List α)} (hp : ps ≠ []) :
    sep.intercalate (ps ++ [w, []]) = sep.intercalate ps ++ (sep ++ w ++ sep) := by
  rw [intercalate_append hp (by simp), List.intercalate_cons_cons, List.intercalate_singleton]
  simp

/-- **The mark stands at the end only** iff no line but the first is the marked one. -/
theorem endsOnce_lines {sep w p : List α} {ps : List (List α)} (hu : Unbordered sep)
    (hw : ¬ sep <:+: w) (hp : ¬ sep <:+: p) (hps : ∀ q ∈ ps, ¬ sep <:+: q) :
    EndsOnce (sep ++ w ++ sep) (sep.intercalate (p :: ps) ++ (sep ++ w ++ sep)) ↔ w ∉ ps := by
  constructor
  · intro h hmem
    obtain ⟨qs, rs, rfl⟩ := List.append_of_mem hmem
    have hcut : sep.intercalate (p :: (qs ++ w :: rs)) ++ (sep ++ w ++ sep) =
        sep.intercalate (p :: qs) ++ (sep ++ w ++ sep) ++ sep.intercalate (rs ++ [w, []]) := by
      have happ : p :: (qs ++ w :: rs) ++ [w, []] = (p :: qs) ++ ([w] ++ (rs ++ [w, []])) := by simp
      rw [← intercalate_mark (by simp), happ, intercalate_append (by simp) (by simp),
        intercalate_append (by simp) (by simp), List.intercalate_singleton]
      simp
    have hnil := (endsOnce_iff.1 h).2 _ _ hcut
    cases rs with
    | nil => exact hu.1 (by simpa [List.intercalate_cons_cons] using hnil : w = [] ∧ sep = []).2
    | cons r rs =>
      rw [intercalate_mark (by simp), List.append_eq_nil_iff, List.append_eq_nil_iff] at hnil
      exact hu.1 hnil.2.2
  · intro h
    have hf := isFirst_line hu hw [] ps p hp fun q hq => ⟨hps q hq, fun he => h (he ▸ hq)⟩
    exact ⟨_, by simpa using hf⟩

/-! ## Replacing -/

section
variable [DecidableEq α]

/-- `replace` when the next `k` elements belong to an occurrence already replaced. -/
def replaceFrom (pat rep : List α) : ℕ → List α → List α
  | _, [] => []
  | k + 1, _ :: s => replaceFrom pat rep k s
  | 0, c :: s =>
    if pat ≠ [] ∧ pat <+: c :: s then rep ++ replaceFrom pat rep (pat.length - 1) s
    else c :: replaceFrom pat rep 0 s

/-- The occurrences of `pat` in `s`, from the left, replaced by `rep`. -/
def replace (pat rep s : List α) : List α := replaceFrom pat rep 0 s

variable {pat rep : List α}

@[simp]
theorem replaceFrom_eq : ∀ (k : ℕ) (s : List α),
    replaceFrom pat rep k s = replace pat rep (s.drop k)
  | 0, s => rfl
  | k + 1, [] => rfl
  | k + 1, _ :: s => by rw [replaceFrom, replaceFrom_eq k s, List.drop_succ_cons]

/-- An occurrence at the start is replaced. -/
theorem replace_append (hp : pat ≠ []) (s : List α) :
    replace pat rep (pat ++ s) = rep ++ replace pat rep s := by
  cases pat with
  | nil => exact absurd rfl hp
  | cons c pat =>
    have hpre : c :: pat <+: c :: (pat ++ s) := List.prefix_append (c :: pat) s
    rw [replace, List.cons_append, replaceFrom, if_pos ⟨by simp, hpre⟩, replaceFrom_eq]
    simp

/-- An element at which no occurrence starts stays. -/
theorem replace_cons {c : α} {s : List α} (h : ¬ pat <+: c :: s) :
    replace pat rep (c :: s) = c :: replace pat rep s := by
  rw [replace, replaceFrom, if_neg fun hc => h hc.2, replace]

theorem replace_of_free : ∀ {s : List α}, ¬ pat <:+: s → replace pat rep s = s
  | [], _ => rfl
  | c :: s, h => by
    rw [List.infix_cons_iff, not_or] at h
    rw [replace_cons h.1, replace_of_free h.2]

/-- What stands before the first occurrence stays. -/
theorem replace_first (hu : Unbordered pat) (s : List α) : ∀ {a : List α}, ¬ pat <:+: a →
    replace pat rep (a ++ pat ++ s) = a ++ rep ++ replace pat rep s
  | [], _ => by simpa using replace_append hu.1 s
  | c :: a, h => by
    have hf := hu.isFirst h s
    have hc : ¬ pat <+: c :: (a ++ pat ++ s) := by
      rintro ⟨t, ht⟩
      have := hf.2 [] t (by simpa using ht.symm)
      simp at this
    rw [List.infix_cons_iff, not_or] at h
    simp only [List.cons_append]
    rw [replace_cons hc, replace_first hu s h.2]

/-- **Replacing joins the pieces with the replacement.** -/
theorem replace_of_isSplit (hu : Unbordered pat) : ∀ {ps : List (List α)} {s : List α},
    IsSplit pat s ps → replace pat rep s = rep.intercalate ps
  | [], _, h => absurd rfl h.ne
  | [p], s, h => by
    obtain rfl : p = s := by simpa using h.join
    rw [replace_of_free (h.free p (by simp)), List.intercalate_singleton]
  | p :: q :: ps, s, h => by
    have hrest : IsSplit pat (pat.intercalate (q :: ps)) (q :: ps) :=
      ⟨by simp, fun x hx => h.free x (List.mem_cons_of_mem _ hx), rfl⟩
    rw [← h.join, List.intercalate_cons_cons, replace_first hu _ (h.free p (by simp)),
      replace_of_isSplit hu hrest, List.intercalate_cons_cons]

/-! ## Stuffing -/

/-- A line that starts with `d` gets one more. -/
def stuff (d : α) (l : List α) : List α := if [d] <+: l then d :: l else l

/-- A line that starts with `d` loses it. -/
def strip (d : α) (l : List α) : List α := if [d] <+: l then l.tail else l

theorem strip_stuff (d : α) (l : List α) : strip d (stuff d l) = l := by
  by_cases h : [d] <+: l
  · simp [strip, stuff, h]
  · simp [strip, stuff, h]

theorem strip_eq_self_iff {d : α} {l : List α} : strip d l = l ↔ ¬ [d] <+: l := by
  cases l with
  | nil => simp [strip]
  | cons x l =>
    by_cases h : d = x
    · simp [strip, h]
    · simp [strip, h]

theorem stuff_ne_singleton (d : α) (l : List α) : stuff d l ≠ [d] := by
  intro h
  by_cases hd : [d] <+: l
  · obtain ⟨t, rfl⟩ := hd
    simp [stuff] at h
  · rw [stuff, if_neg hd] at h
    exact hd (h ▸ List.prefix_refl _)

theorem mem_stuff {d x : α} {l : List α} (h : x ∈ stuff d l) : x = d ∨ x ∈ l := by
  rw [stuff] at h
  split_ifs at h
  · exact List.mem_cons.1 h
  · exact .inr h

/-- A part without the first element of the pattern stays. -/
theorem replace_append_left {c : α} {pat' : List α} (s : List α) : ∀ {a : List α}, c ∉ a →
    replace (c :: pat') rep (a ++ s) = a ++ replace (c :: pat') rep s
  | [], _ => rfl
  | x :: a, h => by
    have hx : c ≠ x := fun he => h (by simp [he])
    have hpre : ¬ c :: pat' <+: x :: (a ++ s) := fun hp => hx (List.cons_prefix_cons.1 hp).1
    rw [List.cons_append, replace_cons hpre,
      replace_append_left s fun ha => h (List.mem_cons_of_mem _ ha), List.cons_append]

/-- **Replacing `c, d` by `c, d, d` stuffs the lines after the first.** -/
theorem replace_lines {c d : α} (hcd : c ≠ d) : ∀ (ls : List (List α)) {l : List α},
    (∀ x ∈ l :: ls, c ∉ x) → replace [c, d] [c, d, d] ([c].intercalate (l :: ls)) =
      [c].intercalate (l :: ls.map (stuff d))
  | [], l, h => by
    have hl : ¬ [c, d] <:+: l := fun hi => h l (by simp) (hi.subset (by simp))
    simp [replace_of_free hl]
  | l' :: ls, l, h => by
    have hl : c ∉ l := h l (by simp)
    have hl' : c ∉ l' := h l' (by simp)
    have hls : ∀ x ∈ ls, c ∉ x := fun x hx => h x (by simp [hx])
    rw [List.intercalate_cons_cons, List.append_assoc, replace_append_left _ hl, List.map_cons,
      List.intercalate_cons_cons, List.append_assoc, List.append_cancel_left_eq]
    by_cases hd : [d] <+: l'
    · -- the separator and the dot are replaced, and the rest of the line is a first line
      obtain ⟨y, rfl⟩ : ∃ y, l' = d :: y := hd.imp fun y hy => hy.symm
      have hy : c ∉ y := fun hm => hl' (by simp [hm])
      have ih := replace_lines hcd ls (l := y) (by simpa using ⟨hy, hls⟩)
      have hs : stuff d (d :: y) = d :: d :: y := by simp [stuff]
      rw [hs]
      simp only [List.intercalate_cons_cons_left]
      rw [← ih]
      exact replace_append (by simp) _
    · have ih := replace_lines hcd ls (l := l') (by simpa using ⟨hl', hls⟩)
      have hs : stuff d l' = l' := by simp [stuff, hd]
      have hpre : ¬ [c, d] <+: c :: [c].intercalate (l' :: ls) := fun hp =>
        hd ((singleton_prefix_lines hcd l' ls).1 (List.cons_prefix_cons.1 hp).2)
      rw [hs, List.singleton_append, replace_cons hpre, ih, List.singleton_append]

end

end Search
