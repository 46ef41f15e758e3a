/-
  Doubly linked lists in a heap: cells with two pointer fields, and the pointer
  surgery that puts a cell at the end of a list or takes one out.

  * `Links κ ρ`: the pointer fields of a cell, and what it has beside them;
  * `append_chain`, `remove_chain`: what the surgery makes of the chain;
    `Keeps`: what it leaves alone, the cells of other lists above all.
-/
import Mathlib.Data.List.Basic
import SmtpProxy.Lib.DList
import SmtpProxy.Lib.Heap

open DList

/-- The fields `prev` and `next` of the cells `κ`, and the rest of a cell. -/
structure Links (κ ρ : Type*) where
  prev : κ → Option ℕ
  next : κ → Option ℕ
  rest : κ → ρ
  setPrev : Option ℕ → κ → κ
  setNext : Option ℕ → κ → κ
  prev_setPrev : ∀ p k, prev (setPrev p k) = p
  prev_setNext : ∀ p k, prev (setNext p k) = prev k
  next_setPrev : ∀ p k, next (setPrev p k) = next k
  next_setNext : ∀ p k, next (setNext p k) = p
  rest_setPrev : ∀ p k, rest (setPrev p k) = rest k
  rest_setNext : ∀ p k, rest (setNext p k) = rest k

namespace Links

section
variable {κ ρ : Type*} (L : Links κ ρ) (h : Heap κ) (head tail : Option ℕ) (n : ℕ)

/-- The cell `n` at the end of the list between `head` and `tail`: the heap and
    the new ends. -/
def append : Option (Heap κ × Option ℕ × Option ℕ) :=
  match tail with
  | none =>
    (h.write n fun k => L.setNext none (L.setPrev none k)).map fun h => (h, some n, some n)
  | some x =>
    (h.write n fun k => L.setNext none (L.setPrev (some x) k)).bind fun h =>
    (h.write x (L.setNext (some n))).map fun h => (h, head, some n)

/-- The cell `n` out of that list. -/
def remove : Option (Heap κ × Option ℕ × Option ℕ) :=
  if some n = head then
    (h.get n).bind fun k =>
      match L.next k with
      | some y =>
        (h.write y (L.setPrev none)).bind fun h =>
        (h.write n (L.setNext none)).map fun h => (h, some y, tail)
      | none => (h.write n (L.setNext none)).map fun h => (h, none, none)
  else if some n = tail then
    (h.get n).bind fun k => (L.prev k).bind fun x =>
      (h.write x (L.setNext none)).bind fun h =>
      (h.write n (L.setPrev none)).map fun h => (h, head, some x)
  else
    (h.get n).bind fun k => (L.prev k).bind fun x =>
      (h.write x (L.setNext (L.next k))).bind fun h =>
      (h.get n).bind fun k => (L.next k).bind fun y =>
      (h.write y (L.setPrev (L.prev k))).bind fun h =>
      (h.write n fun k => L.setNext none (L.setPrev none k)).map fun h => (h, head, tail)

/-- The chain of the cells `l`, all of them allocated. -/
structure IsList (l : List ℕ) : Prop where
  chain : Chain head tail (h.field L.next) (h.field L.prev) l
  alive : ∀ m ∈ l, h.get m ≠ none

/-- The surgery changes no cell that is not in `l`, and of those no more than
    the pointers. -/
structure Keeps (l : List ℕ) (h' : Heap κ) : Prop where
  fresh : h'.fresh = h.fresh
  rest : ∀ m, (h'.get m).map L.rest = (h.get m).map L.rest
  other : ∀ m, m ∉ l → h'.get m = h.get m

end

section
variable {κ ρ : Type*} {L : Links κ ρ} {h h₁ h₂ : Heap κ} {head tail : Option ℕ} {n m : ℕ}
  {l : List ℕ} {f : κ → κ}

/-! ## The frame -/

theorem Keeps.refl : L.Keeps h l h := ⟨rfl, fun _ => rfl, fun _ _ => rfl⟩

theorem Keeps.write (hk : L.Keeps h l h₁) (hw : h₁.write m f = some h₂) (hm : m ∈ l)
    (hf : ∀ k, L.rest (f k) = L.rest k) : L.Keeps h l h₂ where
  fresh := by
    obtain ⟨-, -, -, hfresh⟩ := Heap.write_some hw
    rw [hfresh, hk.fresh]
  rest i := by rw [Heap.map_write hw hf, hk.rest]
  other i hi := by
    have hne : i ≠ m := by
      rintro rfl
      exact hi hm
    rw [Heap.get_write_of_ne hw hne, hk.other i hi]

theorem Keeps.get_eq_none (hk : L.Keeps h l h₁) (i : ℕ) : h₁.get i = none ↔ h.get i = none := by
  rw [← Option.map_eq_none_iff (f := L.rest), hk.rest, Option.map_eq_none_iff]

/-- A list is in its cells. -/
theorem IsList.congr (hl : L.IsList h head tail l) (hg : ∀ i ∈ l, h₁.get i = h.get i) :
    L.IsList h₁ head tail l where
  chain := by
    refine hl.chain.congr (fun b hb => ?_) fun b hb => ?_
    · rw [Heap.field, Heap.field, hg b hb]
    · rw [Heap.field, Heap.field, hg b hb]
  alive i hi := by
    rw [hg i hi]
    exact hl.alive i hi

/-- Writing the rest of a cell changes no list. -/
theorem IsList.write_rest (hl : L.IsList h head tail l) (hw : h.write n f = some h₁)
    (hp : ∀ k, L.prev (f k) = L.prev k) (hx : ∀ k, L.next (f k) = L.next k) :
    L.IsList h₁ head tail l where
  chain := hl.chain.congr (fun b _ => Heap.field_write_same hw hx b) fun b _ =>
    Heap.field_write_same hw hp b
  alive i hi := mt (Heap.write_eq_none_iff hw i).1 (hl.alive i hi)

/-! ## A cell comes -/

/-- **A cell at the end.** -/
theorem append_chain (hl : L.IsList h head tail l) (hn : n ∉ l) (hn' : h.get n ≠ none) :
    ∃ h' head' tail', L.append h head tail n = some (h', head', tail') ∧
      L.IsList h' head' tail' (l ++ [n]) ∧ L.Keeps h (l ++ [n]) h' := by
  have htail := hl.chain.tail_eq
  have hmem : n ∈ l ++ [n] := by simp
  have halive : ∀ {h' : Heap κ}, L.Keeps h (l ++ [n]) h' → ∀ i ∈ l ++ [n], h'.get i ≠ none := by
    intro h' hk i hi
    rw [Ne, hk.get_eq_none]
    rcases List.mem_append.1 hi with hi | hi
    · exact hl.alive i hi
    · rw [List.mem_singleton.1 hi]
      exact hn'
  rcases hlast : tail with _ | x
  · obtain rfl : l = [] := List.getLast?_eq_none_iff.1 (htail.symm.trans hlast)
    obtain ⟨h₁, hw⟩ := Heap.write_isSome
      (f := fun k => L.setNext none (L.setPrev none k)) hn'
    have hk : L.Keeps h ([] ++ [n]) h₁ :=
      Keeps.refl.write hw hmem fun k => (L.rest_setNext _ _).trans (L.rest_setPrev _ _)
    refine ⟨h₁, some n, some n, by simp [append, hw], ⟨?_, halive hk⟩, hk⟩
    refine .first ?_ ?_
    · exact Heap.field_write_self hw fun k => L.next_setNext _ _
    · exact Heap.field_write_self hw fun k => (L.prev_setNext _ _).trans (L.prev_setPrev _ _)
  · have hx : x ∈ l := List.mem_of_getLast? (htail.symm.trans hlast)
    have hxn : x ≠ n := fun he => hn (he ▸ hx)
    obtain ⟨h₁, hw₁⟩ := Heap.write_isSome
      (f := fun k => L.setNext none (L.setPrev (some x) k)) hn'
    obtain ⟨h₂, hw₂⟩ := Heap.write_isSome (f := L.setNext (some n))
      (mt (Heap.write_eq_none_iff hw₁ x).1 (hl.alive x hx))
    have hk : L.Keeps h (l ++ [n]) h₂ :=
      (Keeps.refl.write hw₁ hmem fun k => (L.rest_setNext _ _).trans (L.rest_setPrev _ _)).write
        hw₂ (List.mem_append_left _ hx) (L.rest_setNext _)
    have hchain := hl.chain
    rw [hlast] at hchain
    refine ⟨h₂, head, some n, by simp [append, hw₁, hw₂], ⟨?_, halive hk⟩, hk⟩
    refine hchain.snoc hn ?_ ?_ ?_ (fun b hbx hbn => ?_) fun b hbn => ?_
    · exact Heap.field_write_self hw₂ (L.next_setNext _)
    · exact (Heap.field_write_of_ne hw₂ hxn.symm).trans
        (Heap.field_write_self hw₁ fun k => L.next_setNext _ _)
    · exact (Heap.field_write_of_ne hw₂ hxn.symm).trans (Heap.field_write_self hw₁ fun k =>
        (L.prev_setNext _ _).trans (L.prev_setPrev _ _))
    · exact (Heap.field_write_of_ne hw₂ hbx).trans (Heap.field_write_of_ne hw₁ hbn)
    · exact (Heap.field_write_same hw₂ (L.prev_setNext _) b).trans (Heap.field_write_of_ne hw₁ hbn)

/-! ## A cell goes -/

theorem erase_mid {l₁ l₂ : List ℕ} (hnd : (l₁ ++ n :: l₂).Nodup) :
    (l₁ ++ n :: l₂).erase n = l₁ ++ l₂ := by
  have hn : n ∉ l₁ := fun hm => (List.nodup_append.1 hnd).2.2 n hm n (by simp) rfl
  rw [List.erase_append_right _ hn, List.erase_cons_head]

/-- What a removal leaves: the list without the cell, which points nowhere. -/
structure Removed (L : Links κ ρ) (h : Heap κ) (l : List ℕ) (n : ℕ) (h' : Heap κ)
    (head tail : Option ℕ) : Prop where
  list : L.IsList h' head tail (l.erase n)
  prev : h'.field L.prev n = none
  next : h'.field L.next n = none
  keeps : L.Keeps h l h'

theorem removed_of_chain {h' : Heap κ} {head' tail' : Option ℕ} (hl : L.IsList h head tail l)
    (hc : Chain head' tail' (h'.field L.next) (h'.field L.prev) (l.erase n))
    (hp : h'.field L.prev n = none) (hx : h'.field L.next n = none) (hk : L.Keeps h l h') :
    L.Removed h l n h' head' tail' := by
  refine ⟨⟨hc, fun i hi => ?_⟩, hp, hx, hk⟩
  rw [Ne, hk.get_eq_none]
  exact hl.alive i (List.mem_of_mem_erase hi)

/-- The only cell. -/
theorem remove_only (hl : L.IsList h head tail [n]) (hhead : head = some n)
    (hnext : h.field L.next n = none) :
    ∃ h' head' tail', L.remove h head tail n = some (h', head', tail') ∧
      L.Removed h [n] n h' head' tail' := by
  obtain ⟨k, hk⟩ := Option.ne_none_iff_exists'.1 (hl.alive n (by simp))
  have hkn : L.next k = none := (Heap.field_of_get hk).symm.trans hnext
  obtain ⟨h₁, hw⟩ := Heap.write_isSome (f := L.setNext none) (hl.alive n (by simp))
  refine ⟨h₁, none, none, by simp [remove, hhead, hk, hkn, hw],
    removed_of_chain hl ?_ ?_ ?_ (Keeps.refl.write hw (by simp) (L.rest_setNext _))⟩
  · rw [List.erase_cons_head]
    exact .nil
  · exact (Heap.field_write_same hw (L.prev_setNext _) n).trans hl.chain.prev_first
  · exact Heap.field_write_self hw (L.next_setNext _)

/-- The first cell, before `y`. -/
theorem remove_first {y : ℕ} {l₂ : List ℕ} (hl : L.IsList h head tail (n :: y :: l₂))
    (hhead : head = some n) (hnext : h.field L.next n = some y) :
    ∃ h' head' tail', L.remove h head tail n = some (h', head', tail') ∧
      L.Removed h (n :: y :: l₂) n h' head' tail' := by
  have hnd := hl.chain.nodup
  obtain ⟨k, hk⟩ := Option.ne_none_iff_exists'.1 (hl.alive n (by simp))
  have hkn : L.next k = some y := (Heap.field_of_get hk).symm.trans hnext
  have hyn : y ≠ n := by
    rintro rfl
    simp at hnd
  obtain ⟨h₁, hw₁⟩ := Heap.write_isSome (f := L.setPrev none) (hl.alive y (by simp))
  obtain ⟨h₂, hw₂⟩ := Heap.write_isSome (f := L.setNext none)
    (mt (Heap.write_eq_none_iff hw₁ n).1 (hl.alive n (by simp)))
  have hprev : ∀ b, b ≠ y → h₂.field L.prev b = h.field L.prev b := fun b hb =>
    (Heap.field_write_same hw₂ (L.prev_setNext _) b).trans (Heap.field_write_of_ne hw₁ hb)
  refine ⟨h₂, some y, tail, by simp [remove, hhead, hk, hkn, hw₁, hw₂],
    removed_of_chain hl ?_ ?_ ?_ ((Keeps.refl.write hw₁ (by simp) (L.rest_setPrev _)).write hw₂
      (by simp) (L.rest_setNext _))⟩
  · rw [List.erase_cons_head]
    have hchain := hl.chain
    rw [hhead] at hchain
    refine hchain.erase_first ?_ (fun b hb => ?_) hprev
    · exact (Heap.field_write_same hw₂ (L.prev_setNext _) y).trans
        (Heap.field_write_self hw₁ (L.prev_setPrev _))
    · exact (Heap.field_write_of_ne hw₂ hb).trans (Heap.field_write_same hw₁ (L.next_setPrev _) b)
  · exact (hprev n hyn.symm).trans hl.chain.prev_first
  · exact Heap.field_write_self hw₂ (L.next_setNext _)

/-- The last cell, behind `x`. -/
theorem remove_last {x : ℕ} {l₁ : List ℕ} (hl : L.IsList h head tail (l₁ ++ [x, n]))
    (hhead : head ≠ some n) (htail : tail = some n) (hprev : h.field L.prev n = some x) :
    ∃ h' head' tail', L.remove h head tail n = some (h', head', tail') ∧
      L.Removed h (l₁ ++ [x, n]) n h' head' tail' := by
  have hnd := hl.chain.nodup
  have hlist : l₁ ++ [x, n] = (l₁ ++ [x]) ++ [n] := by simp
  obtain ⟨k, hk⟩ := Option.ne_none_iff_exists'.1 (hl.alive n (by simp))
  have hkp : L.prev k = some x := (Heap.field_of_get hk).symm.trans hprev
  have hxn : x ≠ n := by
    rintro rfl
    simp [List.nodup_append] at hnd
  obtain ⟨h₁, hw₁⟩ := Heap.write_isSome (f := L.setNext none) (hl.alive x (by simp))
  obtain ⟨h₂, hw₂⟩ := Heap.write_isSome (f := L.setPrev none)
    (mt (Heap.write_eq_none_iff hw₁ n).1 (hl.alive n (by simp)))
  have hnext : ∀ b, b ≠ x → h₂.field L.next b = h.field L.next b := fun b hb =>
    (Heap.field_write_same hw₂ (L.next_setPrev _) b).trans (Heap.field_write_of_ne hw₁ hb)
  refine ⟨h₂, head, some x, by simp [remove, Ne.symm hhead, htail, hk, hkp, hw₁, hw₂],
    removed_of_chain hl ?_ ?_ ?_ ((Keeps.refl.write hw₁ (by simp) (L.rest_setNext _)).write hw₂
      (by simp) (L.rest_setPrev _))⟩
  · have herase : (l₁ ++ [x, n]).erase n = l₁ ++ [x] := by
      rw [hlist] at hnd ⊢
      rw [erase_mid hnd, List.append_nil]
    rw [herase]
    have hchain := hl.chain
    rw [htail] at hchain
    refine hchain.erase_last ?_ hnext fun b hb => ?_
    · exact (Heap.field_write_same hw₂ (L.next_setPrev _) x).trans
        (Heap.field_write_self hw₁ (L.next_setNext _))
    · exact (Heap.field_write_of_ne hw₂ hb).trans (Heap.field_write_same hw₁ (L.prev_setNext _) b)
  · exact Heap.field_write_self hw₂ (L.prev_setPrev _)
  · have hchain := hl.chain
    rw [hlist] at hchain
    exact (hnext n hxn.symm).trans hchain.next_last

/-- A cell between `x` and `y`. -/
theorem remove_inner {x y : ℕ} {l₁ l₂ : List ℕ}
    (hl : L.IsList h head tail (l₁ ++ x :: n :: y :: l₂)) (hhead : head ≠ some n)
    (htail : tail ≠ some n) (hprev : h.field L.prev n = some x)
    (hnext : h.field L.next n = some y) :
    ∃ h' head' tail', L.remove h head tail n = some (h', head', tail') ∧
      L.Removed h (l₁ ++ x :: n :: y :: l₂) n h' head' tail' := by
  have hnd := hl.chain.nodup
  obtain ⟨k, hk⟩ := Option.ne_none_iff_exists'.1 (hl.alive n (by simp))
  have hkn : L.next k = some y := (Heap.field_of_get hk).symm.trans hnext
  have hkp : L.prev k = some x := (Heap.field_of_get hk).symm.trans hprev
  have hxn : x ≠ n := by
    rintro rfl
    simp [List.nodup_append] at hnd
  have hyn : y ≠ n := by
    rintro rfl
    simp [List.nodup_append] at hnd
  obtain ⟨h₁, hw₁⟩ := Heap.write_isSome (f := L.setNext (some y)) (hl.alive x (by simp))
  have hk₁ : h₁.get n = some k := (Heap.get_write_of_ne hw₁ hxn.symm).trans hk
  obtain ⟨h₂, hw₂⟩ := Heap.write_isSome (f := L.setPrev (some x))
    (mt (Heap.write_eq_none_iff hw₁ y).1 (hl.alive y (by simp)))
  obtain ⟨h₃, hw₃⟩ := Heap.write_isSome (f := fun k => L.setNext none (L.setPrev none k))
    (mt (Heap.write_eq_none_iff hw₂ n).1 (by rw [hk₁]; simp))
  have hkeep : L.Keeps h (l₁ ++ x :: n :: y :: l₂) h₃ :=
    ((Keeps.refl.write hw₁ (by simp) (L.rest_setNext _)).write hw₂ (by simp)
      (L.rest_setPrev _)).write hw₃ (by simp) fun k =>
        (L.rest_setNext _ _).trans (L.rest_setPrev _ _)
  have hpnone : h₃.field L.prev n = none :=
    Heap.field_write_self hw₃ fun k => (L.prev_setNext _ _).trans (L.prev_setPrev _ _)
  refine ⟨h₃, head, tail,
    by simp [remove, Ne.symm hhead, Ne.symm htail, hk, hkn, hkp, hw₁, hk₁, hw₂, hw₃],
    removed_of_chain hl ?_ hpnone (Heap.field_write_self hw₃ fun k => L.next_setNext _ _) hkeep⟩
  have herase : (l₁ ++ x :: n :: y :: l₂).erase n = l₁ ++ x :: y :: l₂ := by
    have hlist : l₁ ++ x :: n :: y :: l₂ = (l₁ ++ [x]) ++ n :: y :: l₂ := by simp
    rw [hlist] at hnd ⊢
    rw [erase_mid hnd]
    simp
  rw [herase]
  refine hl.chain.erase_inner ?_ ?_ (fun b hb hbn => ?_) fun b hb hbn => ?_
  · exact (Heap.field_write_of_ne hw₃ hxn).trans
      ((Heap.field_write_same hw₂ (L.next_setPrev _) x).trans
        (Heap.field_write_self hw₁ (L.next_setNext _)))
  · exact (Heap.field_write_of_ne hw₃ hyn).trans (Heap.field_write_self hw₂ (L.prev_setPrev _))
  · exact (Heap.field_write_of_ne hw₃ hbn).trans
      ((Heap.field_write_same hw₂ (L.next_setPrev _) b).trans (Heap.field_write_of_ne hw₁ hb))
  · exact (Heap.field_write_of_ne hw₃ hbn).trans
      ((Heap.field_write_of_ne hw₂ hb).trans (Heap.field_write_same hw₁ (L.prev_setNext _) b))

/-- **A cell out of the list.** -/
theorem remove_chain (hl : L.IsList h head tail l) (hn : n ∈ l) :
    ∃ h' head' tail', L.remove h head tail n = some (h', head', tail') ∧
      L.Removed h l n h' head' tail' := by
  rcases hl.chain.cases_of_mem hn with ⟨hhead, hnext, rfl⟩ | ⟨y, l₂, hhead, hnext, rfl⟩ |
    ⟨l₁, x, hhead, htail, hprev, rfl⟩ | ⟨l₁, x, y, l₂, hhead, htail, hprev, hnext, rfl⟩
  · exact remove_only hl hhead hnext
  · exact remove_first hl hhead hnext
  · exact remove_last hl hhead htail hprev
  · exact remove_inner hl hhead htail hprev hnext

/-- A cell that is not in the list and has no `prev` cannot be taken out. -/
theorem remove_none (hl : L.IsList h head tail l) (hn : n ∉ l) (hp : h.field L.prev n = none) :
    L.remove h head tail n = none := by
  have hhead : some n ≠ head := by
    rw [hl.chain.head_eq]
    exact fun he => hn (List.mem_of_mem_head? he.symm)
  have htail : some n ≠ tail := by
    rw [hl.chain.tail_eq]
    exact fun he => hn (List.mem_of_getLast? he.symm)
  rw [remove, if_neg hhead, if_neg htail]
  cases hk : h.get n with
  | none => rfl
  | some k =>
    have hkp : L.prev k = none := (Heap.field_of_get hk).symm.trans hp
    simp [hkp]

end

end Links
