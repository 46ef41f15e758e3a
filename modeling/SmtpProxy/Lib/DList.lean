/-
  Doubly linked lists: the nodes that two link functions `next` and `prev` lead
  along, from `head` and from `tail`.

  * `Seg f p l q`: the links `f` lead from `p` along the nodes `l` to `q`; a
    segment that ends is determined by its start and passes no node twice
    (`Seg.unique`, `Seg.nodup`);
  * `Chain head tail next prev l`: forward from `head` the nodes are `l`,
    backward from `tail` they are `l` reversed;
  * `Chain.cases_of_mem`: where a node stands; `Chain.snoc` and the lemmas
    `Chain.erase_*`: the links that have to change when a node comes or goes.
-/
import Mathlib.Data.List.Nodup
import Mathlib.Data.List.Infix
import Mathlib.Tactic.TypeStar

namespace DList

variable {ν : Type*} {f g next prev next' prev' : ν → Option ν} {p q head tail : Option ν}
  {l l₁ l₂ : List ν} {a x y n : ν}

/-! ## Segments -/

/-- From `p` the links `f` lead along `l` to `q`. -/
def Seg (f : ν → Option ν) : Option ν → List ν → Option ν → Prop
  | p, [], q => p = q
  | p, a :: l, q => p = some a ∧ Seg f (f a) l q

theorem seg_cons : Seg f p (a :: l) q ↔ p = some a ∧ Seg f (f a) l q := Iff.rfl

theorem Seg.congr (h : Seg f p l q) (hg : ∀ b ∈ l, g b = f b) : Seg g p l q := by
  induction l generalizing p with
  | nil => exact h
  | cons a l ih =>
    obtain ⟨hp, hl⟩ := h
    refine ⟨hp, ?_⟩
    rw [hg a (by simp)]
    exact ih hl fun b hb => hg b (by simp [hb])

theorem seg_append : Seg f p (l₁ ++ l₂) q ↔ ∃ r, Seg f p l₁ r ∧ Seg f r l₂ q := by
  induction l₁ generalizing p with
  | nil => simp [Seg]
  | cons a l₁ ih =>
    rw [List.cons_append, seg_cons, ih]
    simp only [seg_cons, and_assoc, exists_and_left]

/-- A segment that ends is determined by its start. -/
theorem Seg.unique (h : Seg f p l₁ none) (h' : Seg f p l₂ none) : l₁ = l₂ := by
  induction l₁ generalizing p l₂ with
  | nil =>
    cases l₂ with
    | nil => rfl
    | cons b l₂ =>
      have hp : p = none := h
      rw [hp] at h'
      cases h'.1
  | cons a l₁ ih =>
    cases l₂ with
    | nil =>
      have hp : p = none := h'
      rw [hp] at h
      cases h.1
    | cons b l₂ =>
      obtain rfl : a = b := Option.some.inj (h.1.symm.trans h'.1)
      rw [ih h.2 h'.2]

/-- A segment that ends passes no node twice. -/
theorem Seg.nodup (h : Seg f p l none) : l.Nodup := by
  induction l generalizing p with
  | nil => exact List.nodup_nil
  | cons a l ih =>
    refine List.nodup_cons.2 ⟨fun ha => ?_, ih h.2⟩
    obtain ⟨l₁, l₂, rfl⟩ := List.append_of_mem ha
    obtain ⟨r, -, hr⟩ := seg_append.1 h.2
    have hfirst : Seg f (some a) (a :: (l₁ ++ a :: l₂)) none := ⟨rfl, h.2⟩
    have hagain : Seg f (some a) (a :: l₂) none := ⟨rfl, hr.2⟩
    have hlen := congrArg List.length (hagain.unique hfirst)
    simp only [List.length_cons, List.length_append] at hlen
    omega

theorem Seg.head?_eq (h : Seg f p l none) : p = l.head? := by
  cases l with
  | nil => exact h
  | cons a l => exact h.1

/-- What follows a node. -/
theorem Seg.link (h : Seg f p (l₁ ++ a :: l₂) none) : f a = l₂.head? := by
  obtain ⟨r, -, hr⟩ := seg_append.1 h
  exact hr.2.head?_eq

/-- One more node behind the last. -/
theorem Seg.extend (h : Seg f p (l ++ [x]) none) (hx : g x = some n) (hn : g n = none)
    (hg : ∀ b ∈ l, g b = f b) : Seg g p (l ++ [x] ++ [n]) none := by
  obtain ⟨r, hl, hr⟩ := seg_append.1 h
  rw [List.append_assoc]
  refine seg_append.2 ⟨r, hl.congr hg, hr.1, ?_⟩
  rw [hx]
  exact ⟨rfl, hn⟩

/-- A node inside is passed over. -/
theorem Seg.cut (h : Seg f p (l₁ ++ x :: a :: l₂) none) (hx : g x = f a)
    (hg : ∀ b, b ≠ x → b ≠ a → g b = f b) : Seg g p (l₁ ++ x :: l₂) none := by
  have hnd := h.nodup
  simp only [List.nodup_append, List.nodup_cons, List.mem_cons, not_or] at hnd
  obtain ⟨-, ⟨⟨-, hx₂⟩, ha₂, -⟩, h₁⟩ := hnd
  obtain ⟨r, hl, hr⟩ := seg_append.1 h
  refine seg_append.2 ⟨r, hl.congr fun b hb => ?_, hr.1, ?_⟩
  · exact hg b (h₁ b hb x (.inl rfl)) (h₁ b hb a (.inr (.inl rfl)))
  · rw [hx]
    refine hr.2.2.congr fun b hb => hg b ?_ ?_
    · rintro rfl; exact hx₂ hb
    · rintro rfl; exact ha₂ hb

/-! ## Chains -/

/-- The list of the nodes `l`: forward from `head`, and backward from `tail`. -/
structure Chain (head tail : Option ν) (next prev : ν → Option ν) (l : List ν) : Prop where
  forward : Seg next head l none
  backward : Seg prev tail l.reverse none

namespace Chain

theorem nil : Chain none none next prev [] := ⟨rfl, rfl⟩

theorem nodup (h : Chain head tail next prev l) : l.Nodup := h.forward.nodup

theorem head_eq (h : Chain head tail next prev l) : head = l.head? := h.forward.head?_eq

theorem tail_eq (h : Chain head tail next prev l) : tail = l.getLast? := by
  rw [← List.head?_reverse]
  exact h.backward.head?_eq

theorem next_eq (h : Chain head tail next prev (l₁ ++ a :: l₂)) : next a = l₂.head? :=
  h.forward.link

theorem prev_eq (h : Chain head tail next prev (l₁ ++ a :: l₂)) : prev a = l₁.getLast? := by
  have hb := h.backward
  rw [List.reverse_append, List.reverse_cons, List.append_assoc, List.singleton_append] at hb
  rw [hb.link, List.head?_reverse]

theorem prev_first (h : Chain head tail next prev (a :: l)) : prev a = none :=
  prev_eq (show Chain head tail next prev ([] ++ a :: l) from h)

theorem next_last (h : Chain head tail next prev (l ++ [a])) : next a = none := next_eq h

theorem congr (h : Chain head tail next prev l) (hn : ∀ b ∈ l, next' b = next b)
    (hp : ∀ b ∈ l, prev' b = prev b) : Chain head tail next' prev' l :=
  ⟨h.forward.congr hn, h.backward.congr fun b hb => hp b (List.mem_reverse.1 hb)⟩

/-- **Where a node stands**: alone, first, last or inside. -/
theorem cases_of_mem (h : Chain head tail next prev l) (ha : a ∈ l) :
    (head = some a ∧ next a = none ∧ l = [a]) ∨
    (∃ y l₂, head = some a ∧ next a = some y ∧ l = a :: y :: l₂) ∨
    (∃ l₁ x, head ≠ some a ∧ tail = some a ∧ prev a = some x ∧ l = l₁ ++ [x, a]) ∨
    (∃ l₁ x y l₂, head ≠ some a ∧ tail ≠ some a ∧ prev a = some x ∧ next a = some y ∧
      l = l₁ ++ x :: a :: y :: l₂) := by
  have hnd := h.nodup
  obtain ⟨l₁, l₂, rfl⟩ := List.append_of_mem ha
  have hnext := h.next_eq
  have hprev := h.prev_eq
  have hhead := h.head_eq
  have htail := h.tail_eq
  rcases List.eq_nil_or_concat l₁ with rfl | ⟨l₁, x, rfl⟩
  · cases l₂ with
    | nil => exact .inl ⟨hhead, hnext, rfl⟩
    | cons y l₂ => exact .inr (.inl ⟨y, l₂, hhead, hnext, rfl⟩)
  · rw [List.concat_eq_append] at *
    -- the first node is another one
    have hne : head ≠ some a := by
      rw [hhead]
      intro he
      have hmem : a ∈ l₁ ++ [x] := by
        cases l₁ with
        | nil => simpa using he.symm
        | cons z l₁ => simp at he; simp [he]
      exact (List.nodup_append.1 hnd).2.2 a hmem a (by simp) rfl
    rw [List.getLast?_append, List.getLast?_singleton] at hprev
    cases l₂ with
    | nil =>
      refine .inr (.inr (.inl ⟨l₁, x, hne, ?_, hprev, by simp⟩))
      rw [htail]
      simp
    | cons y l₂ =>
      refine .inr (.inr (.inr ⟨l₁, x, y, l₂, hne, ?_, hprev, hnext, by simp⟩))
      rw [htail, List.getLast?_append, List.getLast?_cons_cons]
      intro he
      have hlast : a ∈ y :: l₂ := by
        rw [List.getLast?_eq_some_getLast (List.cons_ne_nil y l₂)] at he
        simp only [Option.some_or, Option.some.injEq] at he
        exact he ▸ List.getLast_mem _
      exact (List.nodup_cons.1 (List.nodup_append.1 hnd).2.1).1 hlast

/-! ### A node comes -/

theorem first (hn : next n = none) (hp : prev n = none) : Chain (some n) (some n) next prev [n] :=
  ⟨⟨rfl, hn⟩, ⟨rfl, hp⟩⟩

/-- A node at the end of a chain that is not empty. -/
theorem snoc (h : Chain head (some x) next prev l) (hnl : n ∉ l) (hx : next' x = some n)
    (hn : next' n = none) (hp : prev' n = some x) (hnext : ∀ b, b ≠ x → b ≠ n → next' b = next b)
    (hprev : ∀ b, b ≠ n → prev' b = prev b) : Chain head (some n) next' prev' (l ++ [n]) := by
  have hne : ∀ b ∈ l, b ≠ n := fun b hb he => hnl (he ▸ hb)
  obtain ⟨l₁, rfl⟩ : ∃ l₁, l = l₁ ++ [x] := by
    have htail := h.tail_eq
    rcases List.eq_nil_or_concat l with rfl | ⟨l₁, z, rfl⟩
    · cases htail
    · refine ⟨l₁, ?_⟩
      rw [List.concat_eq_append] at *
      simp only [List.getLast?_append, List.getLast?_singleton, Option.some_or] at htail
      rw [Option.some.inj htail]
  have hnd := h.nodup
  constructor
  · refine h.forward.extend hx hn fun b hb => hnext b ?_ (hne b (by simp [hb]))
    rintro rfl
    exact (List.nodup_append.1 hnd).2.2 b hb b (by simp) rfl
  · rw [List.reverse_append, List.reverse_singleton, List.singleton_append]
    refine ⟨rfl, ?_⟩
    rw [hp]
    exact h.backward.congr fun b hb => hprev b (hne b (List.mem_reverse.1 hb))

/-! ### A node goes -/

/-- The first node goes. -/
theorem erase_first (h : Chain (some a) tail next prev (a :: y :: l)) (hy : prev' y = none)
    (hnext : ∀ b, b ≠ a → next' b = next b) (hprev : ∀ b, b ≠ y → prev' b = prev b) :
    Chain (some y) tail next' prev' (y :: l) := by
  have hnd := List.nodup_cons.1 h.nodup
  have ha : prev a = none := h.prev_first
  have hb := h.backward
  rw [List.reverse_cons, List.reverse_cons, List.append_assoc] at hb
  constructor
  · have hf := h.forward.2
    rw [hf.1] at hf
    exact hf.congr fun b hb => hnext b fun he => hnd.1 (he ▸ hb)
  · rw [List.reverse_cons]
    exact hb.cut (hy.trans ha.symm) fun b hb _ => hprev b hb

/-- The last node goes. -/
theorem erase_last (h : Chain head (some a) next prev (l ++ [x, a])) (hx : next' x = none)
    (hnext : ∀ b, b ≠ x → next' b = next b) (hprev : ∀ b, b ≠ a → prev' b = prev b) :
    Chain head (some x) next' prev' (l ++ [x]) := by
  have h' : Chain head (some a) next prev ((l ++ [x]) ++ [a]) := by simpa using h
  have ha : next a = none := h'.next_last
  have hb := h.backward
  rw [List.reverse_append, List.reverse_cons, List.reverse_singleton, List.append_assoc,
    List.singleton_append] at hb
  have hnd := hb.nodup
  constructor
  · exact h.forward.cut (hx.trans ha.symm) fun b hb _ => hnext b hb
  · rw [List.reverse_append, List.reverse_singleton]
    have hf := hb.2
    rw [hf.1] at hf
    exact hf.congr fun b hb => hprev b fun he => (List.nodup_cons.1 hnd).1 (he ▸ hb)

/-- A node inside goes. -/
theorem erase_inner (h : Chain head tail next prev (l₁ ++ x :: a :: y :: l₂))
    (hx : next' x = some y) (hy : prev' y = some x)
    (hnext : ∀ b, b ≠ x → b ≠ a → next' b = next b)
    (hprev : ∀ b, b ≠ y → b ≠ a → prev' b = prev b) :
    Chain head tail next' prev' (l₁ ++ x :: y :: l₂) := by
  have h' : Chain head tail next prev ((l₁ ++ [x]) ++ a :: y :: l₂) := by simpa using h
  have hna : next a = some y := h'.next_eq
  have hpa : prev a = some x := by rw [h'.prev_eq]; simp
  have hb := h.backward
  have hrev : (l₁ ++ x :: a :: y :: l₂).reverse = l₂.reverse ++ y :: a :: x :: l₁.reverse := by simp
  have hrev' : (l₁ ++ x :: y :: l₂).reverse = l₂.reverse ++ y :: x :: l₁.reverse := by simp
  rw [hrev] at hb
  constructor
  · exact h.forward.cut (hx.trans hna.symm) hnext
  · rw [hrev']
    exact hb.cut (hy.trans hpa.symm) hprev

end Chain

end DList
