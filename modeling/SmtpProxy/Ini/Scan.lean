/-
  The helpers of the ini parser (ini.c), which work in place on the line that was
  read: a pointer is an offset into the block `m`, and a result `none` says that
  a byte outside of the block is touched.

  * `rstrip`, `lskip`, `find_char_or_comment`, `strncpy0`, and `fgets`;
  * `rstrip_at`, `lskip_at`, `find_at`, `strncpy0_at`, `fgets_line`: on a string
    inside a block they stay inside, and do to it what `Lines` does to lists.
-/
import SmtpProxy.Lib.CString
import SmtpProxy.Lib.Lines

namespace SmtpProxy.Ini

open CString

/-- `strlen` -/
def strlen (m : Bytes) (s : ℕ) : Option ℕ :=
  if 0 ∈ m.drop s then some (cstr (m.drop s)).length else none

/-- The loop of `rstrip`, for the value of `p`. -/
def rstripLoop (m : Bytes) (s : ℕ) : ℕ → Option Bytes
  | 0 => some m
  | p + 1 =>
    if s < p + 1 then do
      let c ← m[p]?
      if isspace c then rstripLoop (← putByte m p 0) s p else some m
    else some m

/-- `rstrip`: the block; the function returns `s`. -/
def rstrip (m : Bytes) (s : ℕ) : Option Bytes := do
  rstripLoop m s (s + (← strlen m s))

/-- The loop of `lskip`, over the rest of the block from `s` on. -/
def lskipLoop : Bytes → ℕ → Option ℕ
  | [], _ => none
  | c :: rest, s => if c ≠ 0 && isspace c then lskipLoop rest (s + 1) else some s

def lskip (m : Bytes) (s : ℕ) : Option ℕ := lskipLoop (m.drop s) s

/-- The loop of `find_char_or_comment`, over the rest of the block from `s` on. -/
def findLoop (c : UInt8) : Bytes → Bool → ℕ → Option ℕ
  | [], _, _ => none
  | d :: rest, was_whitespace, s =>
    -- `*s && *s != c && !(was_whitespace && *s == ';')`
    if d ≠ 0 && d ≠ c && !(was_whitespace && d = 59) then findLoop c rest (isspace d) (s + 1)
    else some s

def find_char_or_comment (m : Bytes) (s : ℕ) (c : UInt8) : Option ℕ := findLoop c (m.drop s) false s

/-- `strncpy0`, for the memory at `src`. -/
def strncpy0 (dest src : Bytes) (size : ℕ) : Option Bytes :=
  if size ≤ dest.length ∧ 0 ∈ src then putByte (strncpy dest src size) (size - 1) 0 else none

/-- `fgets(m, size, file)`; `some none` is `NULL`, otherwise the block and what is
    left of the file. -/
def fgets (m : Bytes) (size : ℕ) (file : Bytes) : Option (Option (Bytes × Bytes)) :=
  if m.length < size then none
  else if file = [] then some none
  else some (some (store m 0 ((Lines.next 10 (size - 1) file).1 ++ [0]),
    (Lines.next 10 (size - 1) file).2))

/-- Where `find_char_or_comment` stops: at the character, or at a comment. -/
def stop (c : UInt8) (was_whitespace : Bool) (d : UInt8) : Bool := d = c || was_whitespace && d = 59

/-- Up to a character or a comment; and from there on. -/
def cut (c : UInt8) (t : Bytes) : Bytes × Bytes := Lines.cut isspace (stop c) false t

/-! ## On a string inside a block -/

section
variable {a t r m : Bytes} {c : UInt8} {s : ℕ}

/-- The byte a pointer to a string points to. -/
theorem byte_at (a t r : Bytes) : (a ++ (t ++ 0 :: r))[a.length]? = some (t.headD 0) := by
  rw [List.getElem?_append_right (Nat.le_refl _), Nat.sub_self]
  cases t <;> rfl

theorem drop_at (a t r : Bytes) : (a ++ (t ++ 0 :: r)).drop a.length = t ++ 0 :: r := List.drop_left

theorem strlen_at (a : Bytes) (ht : NulFree t) (r : Bytes) :
    strlen (a ++ (t ++ 0 :: r)) a.length = some t.length := by
  rw [strlen, drop_at, if_pos (by simp), cstr_append_zero ht]

theorem rstripLoop_at (a t r : Bytes) : rstripLoop (a ++ (t ++ r)) a.length (a.length + t.length) =
    some (a ++ (t.rdropWhile isspace ++
      (List.replicate (t.length - (t.rdropWhile isspace).length) 0 ++ r))) := by
  induction t using List.reverseRecOn generalizing r with
  | nil =>
    cases a with
    | nil => simp [rstripLoop]
    | cons b a => simp [rstripLoop]
  | append_singleton t c ih =>
    have hget : (a ++ (t ++ [c] ++ r))[a.length + t.length]? = some c := by
      rw [List.getElem?_append_right (Nat.le_add_right _ _)]
      simp
    have hput : putByte (a ++ (t ++ [c] ++ r)) (a.length + t.length) 0 =
        some (a ++ (t ++ 0 :: r)) := by
      have := putByte_append (a ++ t) r c 0
      simpa using this
    rw [List.length_append, List.length_singleton, ← Nat.add_assoc, rstripLoop,
      if_pos (by omega), hget]
    by_cases hc : isspace c
    · have hle := (List.rdropWhile_prefix (l := t) isspace).length_le
      simp only [Option.bind_eq_bind, Option.bind_some, if_pos hc, hput]
      rw [ih, List.rdropWhile_concat_pos _ _ _ hc, Nat.sub_add_comm hle, List.replicate_succ',
        List.append_assoc, List.singleton_append]
    · simp only [Option.bind_eq_bind, Option.bind_some, if_neg hc]
      rw [List.rdropWhile_concat_neg _ _ _ hc]
      simp

/-- **`rstrip` trims the string**, and nothing behind it changes. -/
theorem rstrip_at (a : Bytes) (ht : NulFree t) (r : Bytes) :
    rstrip (a ++ (t ++ 0 :: r)) a.length =
      some (a ++ (t.rdropWhile isspace ++
        (List.replicate (t.length - (t.rdropWhile isspace).length) 0 ++ 0 :: r))) := by
  rw [rstrip, strlen_at a ht]
  exact rstripLoop_at a t (0 :: r)

theorem lskipLoop_at (t r : Bytes) (s : ℕ) (ht : NulFree t) :
    lskipLoop (t ++ 0 :: r) s = some (s + (t.takeWhile isspace).length) := by
  induction t generalizing s with
  | nil => simp [lskipLoop]
  | cons c t ih =>
    have hc : c ≠ 0 := fun h => ht (by simp [h])
    have ht' : NulFree t := fun h => ht (List.mem_cons_of_mem c h)
    rw [List.cons_append, lskipLoop]
    by_cases hsp : isspace c
    · rw [if_pos (by simp [hc, hsp]), ih _ ht', List.takeWhile_cons_of_pos hsp,
        List.length_cons, Nat.add_assoc, Nat.add_comm 1]
    · rw [if_neg (by simp [hsp]), List.takeWhile_cons_of_neg hsp]
      rfl

theorem lskip_at (a : Bytes) (ht : NulFree t) (r : Bytes) :
    lskip (a ++ (t ++ 0 :: r)) a.length = some (a.length + (t.takeWhile isspace).length) := by
  rw [lskip, drop_at, lskipLoop_at t r _ ht]

theorem findLoop_at (c : UInt8) (t r : Bytes) (was : Bool) (s : ℕ) (ht : NulFree t) :
    findLoop c (t ++ 0 :: r) was s = some (s + (Lines.cut isspace (stop c) was t).1.length) := by
  induction t generalizing was s with
  | nil => simp [findLoop, Lines.cut]
  | cons d t ih =>
    have hd : d ≠ 0 := fun h => ht (by simp [h])
    have ht' : NulFree t := fun h => ht (List.mem_cons_of_mem d h)
    rw [List.cons_append, findLoop, Lines.cut]
    by_cases hstop : stop c was d = true
    · rw [if_neg, if_pos hstop]
      · rfl
      · simp only [stop, Bool.or_eq_true, decide_eq_true_eq, Bool.and_eq_true] at hstop
        rcases hstop with rfl | ⟨rfl, rfl⟩
        · simp
        · simp
    · rw [if_pos, if_neg hstop, ih _ _ ht', List.length_cons, Nat.add_assoc, Nat.add_comm 1]
      simp only [stop, Bool.or_eq_true, decide_eq_true_eq, Bool.and_eq_true, not_or,
        not_and] at hstop
      simp only [hd, ne_eq, not_false_eq_true, decide_true, hstop.1, Bool.and_self, Bool.true_and,
        Bool.not_eq_true', Bool.and_eq_false_iff, decide_eq_false_iff_not]
      by_cases hwas : was = true
      · exact .inr (hstop.2 hwas)
      · exact .inl (by simpa using hwas)

theorem find_at (a : Bytes) (ht : NulFree t) (r : Bytes) (c : UInt8) :
    find_char_or_comment (a ++ (t ++ 0 :: r)) a.length c = some (a.length + (cut c t).1.length) := by
  rw [find_char_or_comment, drop_at, findLoop_at c t r _ _ ht]
  rfl

theorem cut_append (c : UInt8) (t : Bytes) : (cut c t).1 ++ (cut c t).2 = t := Lines.cut_append _ _

theorem cut_nulFree (ht : NulFree t) : NulFree (cut c t).1 ∧ NulFree (cut c t).2 :=
  nulFree_append.1 (by rw [cut_append]; exact ht)

/-- A block of `size` bytes after `strncpy0`. -/
theorem strncpy0_at {dest : Bytes} {size : ℕ} (hdest : dest.length = size) (hsize : size ≠ 0)
    (ht : NulFree t) (r : Bytes) :
    ∃ d, strncpy0 dest (t ++ 0 :: r) size = some (t.take (size - 1) ++ 0 :: d) ∧
      (t.take (size - 1) ++ 0 :: d).length = size := by
  obtain ⟨n, rfl⟩ := Nat.exists_eq_succ_of_ne_zero hsize
  have hcopy : strncpy dest (t ++ 0 :: r) (n + 1) =
      t.take (n + 1) ++ List.replicate (n + 1 - t.length) 0 := by
    have hlen : (t.take (n + 1) ++ List.replicate (n + 1 - t.length) (0 : UInt8)).length = n + 1 := by
      rw [List.length_append, List.length_take, List.length_replicate]
      omega
    rw [strncpy, cstr_append_zero ht, store, List.take_zero, List.nil_append, hlen, Nat.zero_add,
      List.drop_of_length_le (Nat.le_of_eq hdest), List.append_nil]
  rw [strncpy0, if_pos ⟨Nat.le_of_eq hdest.symm, by simp⟩, hcopy, Nat.succ_sub_one, putByte]
  by_cases hlt : t.length ≤ n
  · -- the copy is padded with NULs
    refine ⟨List.replicate (n - t.length) 0, ?_, ?_⟩
    · rw [if_pos (by simp; omega), List.take_of_length_le (by omega), List.take_of_length_le hlt,
        List.set_append_right _ _ hlt, Nat.succ_sub hlt, List.replicate_succ]
      congr 2
      rw [← List.replicate_succ]
      exact List.set_replicate_self
    · rw [List.take_of_length_le hlt, List.length_append, List.length_cons, List.length_replicate]
      omega
  · -- the last byte that is copied gives way to the NUL
    have hn : n < t.length := Nat.lt_of_not_le hlt
    refine ⟨[], ?_, ?_⟩
    · have hzero : n + 1 - t.length = 0 := by omega
      rw [hzero, List.replicate_zero, List.append_nil, if_pos (by simp; omega),
        List.take_add_one, List.getElem?_eq_getElem hn, Option.toList_some,
        List.set_append_right _ _ (by rw [List.length_take]; exact Nat.min_le_left _ _),
        List.length_take, Nat.min_eq_left (Nat.le_of_lt hn),
        Nat.sub_self]
      rfl
    · rw [List.length_append, List.length_take]
      simp
      omega

/-- A line is read: the string in the block is the one the chunk begins with. -/
theorem fgets_line {size : ℕ} {file : Bytes} (hm : m.length = size) (hsize : 2 ≤ size)
    (hfile : file ≠ []) :
    ∃ r, fgets m size file = some (some (cstr (Lines.next 10 (size - 1) file).1 ++ 0 :: r,
        (Lines.next 10 (size - 1) file).2)) ∧
      (cstr (Lines.next 10 (size - 1) file).1 ++ 0 :: r).length = size := by
  have hlen : (Lines.next 10 (size - 1) file).1.length ≤ size - 1 := Lines.length_next_le _ _
  generalize hnext : Lines.next 10 (size - 1) file = x at hlen ⊢
  have hstore : store m 0 (x.1 ++ [0]) = x.1 ++ 0 :: m.drop (x.1.length + 1) := by simp [store]
  have hstring : ∀ w, ∃ v, x.1 ++ 0 :: w = cstr x.1 ++ 0 :: v := by
    intro w
    obtain ⟨r, hr, rfl | ⟨v, rfl⟩⟩ := cstr_append_rest x.1
    · rw [List.append_nil] at hr
      exact ⟨w, by rw [← hr]⟩
    · refine ⟨v ++ 0 :: w, ?_⟩
      conv_lhs => rw [hr]
      simp
  obtain ⟨v, hv⟩ := hstring (m.drop (x.1.length + 1))
  refine ⟨v, ?_, ?_⟩
  · rw [fgets, if_neg (by omega), if_neg hfile, hnext, hstore, hv]
  · rw [← hv, List.length_append, List.length_cons, List.length_drop]
    omega

end

end SmtpProxy.Ini
