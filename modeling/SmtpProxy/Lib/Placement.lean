/-
  Elements kept on shelves, and elements in exclusive use.

  * `Shelved l n place`: the lists `l`, with their counters `n`, hold the
    elements where `place` says they are; kept by `remove`, `put` and `move`;
  * `Owned busy holds`: the busy elements are those that some user holds, each
    by one user; kept by `acquire` and `give`;
  * `Locked mtx locking`: the lock records the one thread that is in a locked
    section; kept by `lock` and `unlock`.
-/
import Mathlib.Data.Int.Notation
import Mathlib.Data.List.Induction
import Mathlib.Data.List.Nodup
import Mathlib.Data.List.Perm.Subperm
import Mathlib.Logic.Function.Basic

namespace Placement

variable {ι κ : Type*}

/-! ## Shelves -/

/-- The lists `l` hold the elements that `place` puts there, `n` counts them. -/
structure Shelved (l : ι → List κ) (n : ι → ℤ) (place : κ → Option ι) : Prop where
  nodup : ∀ a, (l a).Nodup
  count : ∀ a, n a = (l a).length
  mem : ∀ a c, c ∈ l a ↔ place c = some a

namespace Shelved
variable [DecidableEq ι] [DecidableEq κ]
variable {l : ι → List κ} {n : ι → ℤ} {place : κ → Option ι} {a b : ι} {c : κ}

theorem remove (h : Shelved l n place) (hc : place c = some a) :
    Shelved (Function.update l a ((l a).erase c)) (Function.update n a (n a - 1))
      (Function.update place c none) where
  nodup := by
    intro a'
    by_cases ha : a' = a
    · subst ha; simpa using (h.nodup a').erase c
    · simpa [ha] using h.nodup a'
  count := by
    intro a'
    by_cases ha : a' = a
    · subst ha
      have hmem := (h.mem a' c).2 hc
      have hpos := List.length_pos_of_mem hmem
      simp only [Function.update_self, h.count, List.length_erase_of_mem hmem]
      omega
    · simpa [ha] using h.count a'
  mem := by
    intro a' d
    by_cases ha : a' = a
    · subst ha
      rw [Function.update_self, (h.nodup a').mem_erase_iff, h.mem]
      by_cases hd : d = c
      · subst hd; simp
      · simp [hd]
    · rw [Function.update_of_ne ha, h.mem]
      by_cases hd : d = c
      · subst hd
        simp only [hc, Option.some.injEq, Function.update_self, reduceCtorEq, iff_false]
        exact fun h => ha h.symm
      · simp [hd]

theorem put (h : Shelved l n place) (hc : place c = none) :
    Shelved (Function.update l b (l b ++ [c])) (Function.update n b (n b + 1))
      (Function.update place c (some b)) where
  nodup := by
    intro b'
    by_cases hb : b' = b
    · subst hb
      have hmem : c ∉ l b' := fun hm => by simp [(h.mem b' c).1 hm] at hc
      simpa using List.nodup_append.2 ⟨h.nodup b', List.nodup_singleton c, by
        rintro x hx y hy rfl
        exact hmem (List.mem_singleton.1 hy ▸ hx)⟩
    · simpa [hb] using h.nodup b'
  count := by
    intro b'
    by_cases hb : b' = b
    · subst hb; simp [h.count]
    · simpa [hb] using h.count b'
  mem := by
    intro b' d
    by_cases hb : b' = b
    · subst hb
      rw [Function.update_self, List.mem_append, List.mem_singleton, h.mem]
      by_cases hd : d = c
      · subst hd; simp
      · simp [hd]
    · rw [Function.update_of_ne hb, h.mem]
      by_cases hd : d = c
      · subst hd
        simp only [hc, reduceCtorEq, Function.update_self, Option.some.injEq, false_iff]
        exact fun h => hb h.symm
      · simp [hd]

theorem move (h : Shelved l n place) (hc : place c = some a) (hab : a ≠ b) :
    Shelved (fun a' => if a' = b then l b ++ [c] else if a' = a then (l a).erase c else l a')
      (fun a' => if a' = b then n b + 1 else if a' = a then n a - 1 else n a')
      (Function.update place c (some b)) := by
  have hput := (h.remove hc).put (b := b) (Function.update_self ..)
  rw [Function.update_of_ne hab.symm, Function.update_of_ne hab.symm, Function.update_idem] at hput
  convert hput using 1
  · ext1 a'
    by_cases hb : a' = b
    · subst hb; simp
    · by_cases ha : a' = a
      · subst ha; simp [hb]
      · simp [hb, ha]
  · ext1 a'
    by_cases hb : a' = b
    · subst hb; simp
    · by_cases ha : a' = a
      · subst ha; simp [hb]
      · simp [hb, ha]

end Shelved

/-- Elements are placed at their index: those with `p` are at most as many as
    the shelves `as`, where they all are, hold. -/
theorem Shelved.countP_le [DecidableEq ι] {l : ι → List ℕ} {n : ι → ℤ} {place : ℕ → Option ι}
    {α : Type*} {xs : List α} {p : α → Bool} {as : List ι} (h : Shelved l n place)
    (hp : ∀ (c : ℕ) (x : α), xs[c]? = some x → p x → ∃ a ∈ as, place c = some a) :
    xs.countP p ≤ (as.flatMap l).length := by
  have hidx : ∀ ys : List α, ys.countP p =
      ((List.range ys.length).filter fun c => (ys[c]?).any p).length := by
    intro ys
    induction ys using List.reverseRecOn with
    | nil => rfl
    | append_singleton ys y ih =>
      have hpre : (List.range ys.length).filter (fun c => ((ys ++ [y])[c]?).any p) =
          (List.range ys.length).filter fun c => (ys[c]?).any p :=
        List.filter_congr fun c hc => by
          rw [List.getElem?_append_left (List.mem_range.1 hc)]
      rw [List.countP_append, ih, List.length_append, List.length_singleton, List.range_succ,
        List.filter_append, List.length_append, hpre]
      cases hy : p y <;> simp [hy]
  rw [hidx]
  refine (List.subperm_of_subset (List.nodup_range.filter _) fun c hc => ?_).length_le
  obtain ⟨-, hc⟩ := List.mem_filter.1 hc
  cases hx : xs[c]? with
  | none => simp [hx] at hc
  | some x =>
    obtain ⟨a, ha, hplace⟩ := hp c x hx (by simpa [hx] using hc)
    exact List.mem_flatMap.2 ⟨a, ha, (h.mem a c).2 hplace⟩

/-- At most one element has `p`. -/
theorem countP_le_one {α : Type*} {p : α → Bool} : ∀ {xs : List α},
    (∀ (i j : ℕ) (x y : α), xs[i]? = some x → xs[j]? = some y → p x → p y → i = j) →
      xs.countP p ≤ 1
  | [], _ => by simp
  | x :: xs, h => by
    have ih : xs.countP p ≤ 1 := countP_le_one fun i j a b ha hb hpa hpb =>
      Nat.succ.inj (h (i + 1) (j + 1) a b (by simpa using ha) (by simpa using hb) hpa hpb)
    rw [List.countP_cons]
    split
    · rename_i hx
      have : xs.countP p = 0 := by
        rw [List.countP_eq_zero]
        intro y hy hpy
        obtain ⟨j, hj⟩ := List.mem_iff_getElem?.1 hy
        have := h 0 (j + 1) x y rfl (by simpa using hj) hx hpy
        omega
      omega
    · omega

/-! ## Exclusive use -/

/-- The busy elements are those that some user holds, each by one user. -/
structure Owned (busy : κ → Prop) (holds : ι → Option κ) : Prop where
  busy_iff : ∀ c, busy c ↔ ∃ i, holds i = some c
  unique : ∀ i j c, holds i = some c → holds j = some c → i = j

namespace Owned
variable {busy busy' : κ → Prop} {holds holds' : ι → Option κ} {i : ι} {c : κ}

theorem acquire [DecidableEq ι] (h : Owned busy holds) (hc : ¬ busy c) (hi : holds i = none)
    (hb : ∀ d, busy' d ↔ d = c ∨ busy d)
    (hh : ∀ j, holds' j = if j = i then some c else holds j) : Owned busy' holds' where
  busy_iff := by
    intro d
    rw [hb, h.busy_iff]
    constructor
    · rintro (rfl | ⟨j, hj⟩)
      · exact ⟨i, by simp [hh]⟩
      · refine ⟨j, ?_⟩
        rw [hh, if_neg (by rintro rfl; simp [hi] at hj), hj]
    · rintro ⟨j, hj⟩
      rw [hh] at hj
      split at hj
      · exact Or.inl (Option.some.inj hj).symm
      · exact Or.inr ⟨j, hj⟩
  unique := by
    have hfree : ∀ j, holds j ≠ some c := fun j hj => hc ((h.busy_iff c).2 ⟨j, hj⟩)
    intro j k d hj hk
    rw [hh] at hj hk
    split at hj <;> split at hk
    · simp [*]
    · exact absurd (hj ▸ hk) (hfree k)
    · exact absurd (hk ▸ hj) (hfree j)
    · exact h.unique j k d hj hk

theorem give [DecidableEq ι] (h : Owned busy holds) (hi : holds i = some c) (hb : ∀ d, busy' d ↔ d ≠ c ∧ busy d)
    (hh : ∀ j, holds' j = if j = i then none else holds j) : Owned busy' holds' where
  busy_iff := by
    intro d
    rw [hb, h.busy_iff]
    constructor
    · rintro ⟨hd, j, hj⟩
      refine ⟨j, ?_⟩
      rw [hh, if_neg (by rintro rfl; simp [hi] at hj; exact hd hj.symm), hj]
    · rintro ⟨j, hj⟩
      rw [hh] at hj
      split at hj
      · cases hj
      · rename_i hji
        refine ⟨?_, j, hj⟩
        rintro rfl
        exact hji (h.unique j i d hj hi)
  unique := by
    intro j k d hj hk
    rw [hh] at hj hk
    split at hj
    · cases hj
    · split at hk
      · cases hk
      · exact h.unique j k d hj hk

theorem congr (h : Owned busy holds) (hb : ∀ d, busy' d ↔ busy d) (hh : ∀ j, holds' j = holds j) :
    Owned busy' holds' where
  busy_iff d := by rw [hb, h.busy_iff]; simp [hh]
  unique i j d hi hj := h.unique i j d (hh i ▸ hi) (hh j ▸ hj)

end Owned

/-! ## A lock kept over several steps -/

/-- The lock records the one thread in a locked section. -/
def Locked (mtx : Option ι) (locking : ι → Prop) : Prop := ∀ t, mtx = some t ↔ locking t

namespace Locked
variable {mtx : Option ι} {locking locking' : ι → Prop} {t : ι}

theorem unique (h : Locked mtx locking) {u : ι} (ht : locking t) (hu : locking u) : t = u :=
  Option.some.inj (((h t).2 ht).symm.trans ((h u).2 hu))

theorem lock (h : Locked none locking) (hl : ∀ u, locking' u ↔ u = t ∨ locking u) :
    Locked (some t) locking' := by
  intro u
  rw [hl, ← h]
  simp [eq_comm]

theorem unlock (h : Locked mtx locking) (ht : locking t)
    (hl : ∀ u, locking' u ↔ u ≠ t ∧ locking u) : Locked none locking' := by
  intro u
  rw [hl]
  constructor
  · intro h'; cases h'
  · rintro ⟨hne, hu⟩
    exact absurd (h.unique hu ht) hne

theorem congr (h : Locked mtx locking) (hl : ∀ u, locking' u ↔ locking u) :
    Locked mtx locking' := fun u => by rw [hl, h]

end Locked

end Placement
