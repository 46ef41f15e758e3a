/-
  Memory blocks and C strings.

  A block of memory is its list of bytes, a pointer into it is an offset, and
  the string at a pointer ends at the first NUL (`cstr`).  The string functions
  of the C library are given by their documented effect on blocks; `strncmp`
  and `strstr` return the comparison and the offset the callers test.
-/
import Mathlib.Algebra.Group.Int.Defs
import Mathlib.Algebra.Group.Nat.Defs
import Mathlib.Data.Int.Notation
import Mathlib.Data.List.TakeWhile
import SmtpProxy.Lib.Search

namespace CString

abbrev Bytes := List UInt8

/-- The bytes of a string literal of the source (all of them ASCII). -/
def bytes (s : String) : Bytes := s.toList.map fun c => c.val.toUInt8

/-- A list of bytes without NUL. -/
def NulFree (s : Bytes) : Prop := (0 : UInt8) ∉ s

instance (s : Bytes) : Decidable (NulFree s) := inferInstanceAs (Decidable (¬ _))

/-- The C string at the start of a block. -/
def cstr (m : Bytes) : Bytes := m.takeWhile (· ≠ 0)

/-- `strstr(m, pat)`, as an offset. -/
def strstr (m pat : Bytes) : Option ℕ := Search.find pat (cstr m)

/-- `strncmp(a, b, n) == 0` -/
def strncmp (a b : Bytes) (n : ℕ) : Bool := (cstr a).take n = (cstr b).take n

/-- `strcmp(a, b) == 0` -/
def strcmp (a b : Bytes) : Bool := cstr a = cstr b

/-- `strrchr(m, c)`, as an offset. -/
def strrchr (m : Bytes) (c : UInt8) : Option ℕ :=
  if c ∈ cstr m then some ((cstr m).length - 1 - (cstr m).reverse.idxOf c) else none

/-- `memset(m + off, c, n)` -/
def memset (m : Bytes) (off : ℕ) (c : UInt8) (n : ℕ) : Bytes :=
  m.take off ++ List.replicate n c ++ m.drop (off + n)

/-- `memcpy(m + off, bs, |bs|)`: what `read` does to its buffer. -/
def store (m : Bytes) (off : ℕ) (bs : Bytes) : Bytes :=
  m.take off ++ bs ++ m.drop (off + bs.length)

/-- `snprintf(m, size, …)` for the formatted text `s`. -/
def snprintf (m : Bytes) (size : ℕ) (s : Bytes) : Bytes := store m 0 (s.take (size - 1) ++ [0])

/-- `sprintf(m, …)` for the formatted text `s`; `none`: there is not the room. -/
def sprintf (m s : Bytes) : Option Bytes :=
  if s.length < m.length then some (store m 0 (s ++ [0])) else none

/-- `%d` -/
def decimal (n : ℤ) : Bytes :=
  (if n < 0 then [45] else []) ++ (Nat.toDigits 10 n.natAbs).map fun c => c.val.toUInt8

/-- A conversion with a field width. -/
def padded (width : ℕ) (s : Bytes) : Bytes := List.replicate (width - s.length) 32 ++ s

/-- `strncpy(m, src, n)`: at most `n` bytes of the string, padded with NULs to `n`. -/
def strncpy (m src : Bytes) (n : ℕ) : Bytes :=
  store m 0 ((cstr src).take n ++ List.replicate (n - (cstr src).length) 0)

/-- `m[i] = c`; `none`: outside of the block. -/
def putByte (m : Bytes) (i : ℕ) (c : UInt8) : Option Bytes :=
  if i < m.length then some (m.set i c) else none

/-- `strcat(m, s)`; `none`: `m` has no NUL, or not the room. -/
def strcat (m s : Bytes) : Option Bytes :=
  if 0 ∈ m ∧ (cstr m).length + (cstr s).length < m.length then
    some (store m (cstr m).length (cstr s ++ [0]))
  else none

/-- A string in memory: no object has more than `2^63 - 1` bytes, the NUL included. -/
structure CStr where
  text : Bytes
  nulFree : NulFree text
  size : text.length + 1 < 2 ^ 63

/-- The value of an expression of type `size_t`. -/
def sizeT (n : ℕ) : ℕ := n % 2 ^ 64

/-- The value of a `size_t` in an `int`. -/
@[irreducible] def intOf (n : ℕ) : ℤ := (n : ℤ).bmod (2 ^ 32)

/-- `int len = strlen(m)` -/
def lenOf (m : Bytes) : ℤ := intOf (cstr m).length

/-- `isspace`, in the C locale. -/
def isspace (c : UInt8) : Bool := c = 32 || 9 ≤ c && c ≤ 13

/-- `isdigit` -/
def isdigit (c : UInt8) : Bool := 48 ≤ c && c ≤ 57

/-- `(int) strtol(m, NULL, 10)`, which is `atoi`: 64 bits of `long`, 32 of `int`. -/
def atoi (m : Bytes) : ℤ :=
  let value (ds : Bytes) : ℤ :=
    (ds.takeWhile isdigit).foldl (fun n c => 10 * n + (c.toNat - 48 : ℕ)) 0
  let n := match (cstr m).dropWhile isspace with
    | 45 :: ds => - value ds
    | 43 :: ds => value ds
    | ds => value ds
  (max (-2 ^ 63) (min n (2 ^ 63 - 1))).bmod (2 ^ 32)

/-! ## C strings -/

theorem NulFree.append {s t : Bytes} (hs : NulFree s) (ht : NulFree t) : NulFree (s ++ t) := by
  simp [NulFree] at *; exact ⟨hs, ht⟩

theorem nulFree_append {s t : Bytes} : NulFree (s ++ t) ↔ NulFree s ∧ NulFree t := by
  simp [NulFree, not_or]

theorem NulFree.take {s : Bytes} (hs : NulFree s) (n : ℕ) : NulFree (s.take n) :=
  fun h => hs (List.mem_of_mem_take h)

theorem cstr_nulFree (m : Bytes) : NulFree (cstr m) := by
  intro h
  have := List.mem_takeWhile_imp h
  simp at this

/-- The string ends at the first NUL. -/
theorem cstr_append_zero {s : Bytes} (hs : NulFree s) (r : Bytes) : cstr (s ++ 0 :: r) = s := by
  have hall : ∀ a ∈ s, decide (a ≠ 0) = true := fun a ha => by
    simp only [ne_eq, decide_not, Bool.not_eq_true', decide_eq_false_iff_not]
    rintro rfl; exact hs ha
  rw [cstr, List.takeWhile_append_of_pos hall]
  simp

theorem cstr_of_nulFree {s : Bytes} (hs : NulFree s) : cstr s = s := by
  refine List.takeWhile_eq_self_iff.2 fun a ha => ?_
  simp only [ne_eq, decide_not, Bool.not_eq_true', decide_eq_false_iff_not]
  rintro rfl; exact hs ha

theorem NulFree.cstr_append {s : Bytes} (hs : NulFree s) (t : Bytes) : cstr (s ++ t) = s ++ cstr t := by
  have hall : ∀ a ∈ s, decide (a ≠ 0) = true := fun a ha => by
    simp only [ne_eq, decide_not, Bool.not_eq_true', decide_eq_false_iff_not]
    rintro rfl; exact hs ha
  rw [cstr, List.takeWhile_append_of_pos hall]
  rfl

theorem cstr_cstr (m : Bytes) : cstr (cstr m) = cstr m := cstr_of_nulFree (cstr_nulFree m)

/-- A block that holds a NUL is its string, the NUL, and what follows. -/
theorem cstr_append_of_mem {m : Bytes} (h : (0 : UInt8) ∈ m) : ∃ r, m = cstr m ++ 0 :: r := by
  induction m with
  | nil => simp at h
  | cons c m ih =>
    by_cases hc : c = 0
    · exact ⟨m, by simp [cstr, hc]⟩
    · rcases List.mem_cons.1 h with h | h
      · exact absurd h.symm hc
      · obtain ⟨r, hr⟩ := ih h
        refine ⟨r, ?_⟩
        conv_lhs => rw [hr]
        simp [cstr, hc]

/-- A list of bytes is its string, and nothing or a NUL behind it. -/
theorem cstr_append_rest (m : Bytes) : ∃ r, m = cstr m ++ r ∧ (r = [] ∨ ∃ v, r = 0 :: v) := by
  by_cases h : (0 : UInt8) ∈ m
  · obtain ⟨v, hv⟩ := cstr_append_of_mem h
    exact ⟨0 :: v, hv, Or.inr ⟨v, rfl⟩⟩
  · exact ⟨[], by rw [cstr_of_nulFree h, List.append_nil], Or.inl rfl⟩

/-! ## Blocks -/

theorem memset_append (a b r : Bytes) (c : UInt8) :
    memset (a ++ (b ++ r)) a.length c b.length = a ++ (List.replicate b.length c ++ r) := by
  rw [memset, List.take_left, ← List.drop_drop, List.drop_left, List.drop_left, List.append_assoc]

theorem store_append (a r : Bytes) {b bs : Bytes} (h : bs.length = b.length) :
    store (a ++ (b ++ r)) a.length bs = a ++ (bs ++ r) := by
  rw [store, List.take_left, ← List.drop_drop, List.drop_left, h, List.drop_left,
    List.append_assoc]

/-! ## Formatting and copying -/

theorem cstr_snprintf {s : Bytes} (hs : NulFree s) (m : Bytes) (size : ℕ) :
    cstr (snprintf m size s) = s.take (size - 1) := by
  simp only [snprintf, store, List.take_zero, List.nil_append, List.append_assoc,
    List.singleton_append]
  exact cstr_append_zero (hs.take _) _

theorem sprintf_eq {m s : Bytes} (hs : NulFree s) (h : s.length < m.length) :
    ∃ m', sprintf m s = some m' ∧ cstr m' = s ∧ m'.length = m.length := by
  refine ⟨_, if_pos h, ?_, ?_⟩
  · simp only [store, List.take_zero, List.nil_append, List.append_assoc, List.singleton_append]
    exact cstr_append_zero hs _
  · simp only [store, List.take_zero, List.nil_append, List.length_append, List.length_drop,
      List.length_singleton]
    omega

theorem decimal_nulFree (n : ℤ) : NulFree (decimal n) := by
  refine NulFree.append ?_ fun h => ?_
  · split
    · decide
    · decide
  · obtain ⟨c, hc, hzero⟩ := List.mem_map.1 h
    have hdigit := Nat.isDigit_of_mem_toDigits (by decide) (by decide) hc
    obtain ⟨hlow, hhigh⟩ : 48 ≤ c.val.toNat ∧ c.val.toNat ≤ 57 := by
      simpa [Char.isDigit, UInt32.le_iff_toNat_le] using hdigit
    have hval := congrArg UInt8.toNat hzero
    rw [UInt32.toNat_toUInt8] at hval
    change c.val.toNat % 256 = 0 at hval
    omega

/-- An `int` has ten digits at most. -/
theorem length_decimal_le {n : ℤ} (hlow : -2 ^ 31 ≤ n) (hhigh : n < 2 ^ 31) :
    (decimal n).length ≤ 11 := by
  have hdigits : (Nat.toDigits 10 n.natAbs).length ≤ 10 :=
    (Nat.length_toDigits_le_iff (by decide) (by decide)).2 (by omega)
  rw [decimal, List.length_append, List.length_map]
  split
  · simp only [List.length_singleton]
    omega
  · simp only [List.length_nil]
    omega

theorem NulFree.padded {s : Bytes} (hs : NulFree s) (width : ℕ) : NulFree (padded width s) :=
  NulFree.append (fun h => absurd (List.eq_of_mem_replicate h) (by decide)) hs

/-- A copy that fits is terminated. -/
theorem cstr_strncpy {src : Bytes} {n : ℕ} (m : Bytes) (h : (cstr src).length < n) :
    cstr (strncpy m src n) = cstr src := by
  obtain ⟨k, hk⟩ : ∃ k, n - (cstr src).length = k + 1 := ⟨n - (cstr src).length - 1, by omega⟩
  simp only [strncpy, store, List.take_zero, List.nil_append, List.append_assoc,
    List.take_of_length_le (Nat.le_of_lt h), hk, List.replicate_succ, List.cons_append]
  exact cstr_append_zero (cstr_nulFree src) _

/-- Appending to the string of a block that is NULs from its end on. -/
theorem strcat_zeros {s t : Bytes} {n : ℕ} (hs : NulFree s) (ht : NulFree t) (h : t.length < n) :
    strcat (s ++ List.replicate n 0) t = some (s ++ t ++ List.replicate (n - t.length) 0) := by
  obtain ⟨k, rfl⟩ : ∃ k, n = t.length + 1 + k := ⟨n - t.length - 1, by omega⟩
  have hsplit : List.replicate (t.length + 1 + k) (0 : UInt8) =
      List.replicate (t.length + 1) 0 ++ List.replicate k 0 := List.replicate_add ..
  have hstr : cstr (s ++ List.replicate (t.length + 1 + k) 0) = s := by
    rw [hsplit, List.replicate_succ]
    exact cstr_append_zero hs _
  have hmem : (0 : UInt8) ∈ s ++ List.replicate (t.length + 1 + k) 0 := by
    rw [hsplit, List.replicate_succ]
    simp
  have hroom : s.length + t.length < (s ++ List.replicate (t.length + 1 + k) 0).length := by
    rw [List.length_append, List.length_replicate]
    omega
  have hrest : t.length + 1 + k - t.length = 1 + k := by omega
  rw [strcat, hstr, cstr_of_nulFree ht, if_pos ⟨hmem, hroom⟩, hsplit,
    store_append s _ (by simp), hrest, List.replicate_add]
  simp

theorem length_strcat {m s m' : Bytes} (h : strcat m s = some m') : m'.length = m.length := by
  unfold strcat at h
  split at h
  · rename_i hroom
    obtain rfl := Option.some.inj h
    simp only [store, List.length_append, List.length_take, List.length_drop, List.length_singleton]
    omega
  · cases h

theorem length_putByte {m m' : Bytes} {i : ℕ} {c : UInt8} (h : putByte m i c = some m') :
    m'.length = m.length := by
  unfold putByte at h
  split at h
  · obtain rfl := Option.some.inj h
    exact List.length_set
  · cases h

/-- A byte behind the beginning `s` of a block. -/
theorem putByte_append (s r : Bytes) (c d : UInt8) :
    putByte (s ++ c :: r) s.length d = some (s ++ d :: r) := by
  rw [putByte, if_pos (by simp), List.set_append_right s.length d (Nat.le_refl _), Nat.sub_self]
  rfl

/-! ## Numbers -/

/-- A character above the blank. -/
theorem isspace_of_lt {c : UInt8} (h : 32 < c.toNat) : isspace c = false := by
  simp only [isspace, Bool.or_eq_false_iff, decide_eq_false_iff_not, Bool.and_eq_false_iff,
    UInt8.le_iff_toNat_le]
  refine ⟨?_, .inr ?_⟩
  · rintro rfl
    exact absurd h (by decide)
  · have h13 : (13 : UInt8).toNat = 13 := rfl
    omega

/-- The byte of a digit. -/
theorem toNat_digit {c : Char} (h : c.isDigit = true) :
    c.val.toUInt8.toNat = c.toNat ∧ 48 ≤ c.toNat ∧ c.toNat ≤ 57 := by
  obtain ⟨hlow, hhigh⟩ : 48 ≤ c.val.toNat ∧ c.val.toNat ≤ 57 := by
    simpa [Char.isDigit, UInt32.le_iff_toNat_le] using h
  refine ⟨?_, hlow, hhigh⟩
  rw [UInt32.toNat_toUInt8]
  exact Nat.mod_eq_of_lt (by omega)

theorem isdigit_digit {c : Char} (h : c.isDigit = true) : isdigit c.val.toUInt8 = true := by
  obtain ⟨hval, hlow, hhigh⟩ := toNat_digit h
  simp only [isdigit, Bool.and_eq_true, decide_eq_true_eq, UInt8.le_iff_toNat_le, hval]
  exact ⟨hlow, hhigh⟩

/-- `strtol` on digits. -/
theorem value_digits : ∀ (ds : List Char) (n : ℕ), (∀ c ∈ ds, c.isDigit = true) →
    (ds.map fun c => c.val.toUInt8).foldl (fun (n : ℤ) c => 10 * n + (c.toNat - 48 : ℕ)) n =
      (Nat.ofDigitChars 10 ds n : ℕ)
  | [], n, _ => by simp
  | c :: ds, n, h => by
    have hval := (toNat_digit (h c List.mem_cons_self)).1
    have ih := value_digits ds (10 * n + (c.toNat - 48)) fun d hd => h d (List.mem_cons_of_mem c hd)
    rw [Nat.ofDigitChars_cons, List.map_cons, List.foldl_cons, hval]
    exact ih

/-- **`atoi` reads what `%d` prints.** -/
theorem atoi_decimal {n : ℤ} (hlow : -2 ^ 31 ≤ n) (hhigh : n < 2 ^ 31) : atoi (decimal n) = n := by
  have hdigits : ∀ c ∈ Nat.toDigits 10 n.natAbs, c.isDigit = true :=
    fun c hc => Nat.isDigit_of_mem_toDigits (by decide) (by decide) hc
  have hall : ∀ c ∈ (Nat.toDigits 10 n.natAbs).map fun c => c.val.toUInt8, isdigit c = true := by
    intro b hb
    obtain ⟨c, hc, rfl⟩ := List.mem_map.1 hb
    exact isdigit_digit (hdigits c hc)
  have hvalue : (((Nat.toDigits 10 n.natAbs).map fun c => c.val.toUInt8).takeWhile isdigit).foldl
      (fun (n : ℤ) c => 10 * n + (c.toNat - 48 : ℕ)) 0 = n.natAbs := by
    rw [List.takeWhile_eq_self_iff.2 hall]
    have := value_digits (Nat.toDigits 10 n.natAbs) 0 hdigits
    rw [Nat.ofDigitChars_ten_toDigits] at this
    exact this
  obtain ⟨d, ds, hds⟩ : ∃ d ds, ((Nat.toDigits 10 n.natAbs).map fun c => c.val.toUInt8) = d :: ds := by
    cases h : Nat.toDigits 10 n.natAbs with
    | nil => exact absurd h Nat.toDigits_ne_nil
    | cons c cs => exact ⟨_, _, rfl⟩
  have hd : isdigit d = true := hall d (by rw [hds]; exact List.mem_cons_self)
  have hclamp : (max (-2 ^ 63) (min n (2 ^ 63 - 1))).bmod (2 ^ 32) = n := by
    have hmin : max (-2 ^ 63) (min n (2 ^ 63 - 1)) = n := by omega
    rw [hmin]
    exact Int.bmod_eq_of_le (by omega) (by omega)
  have hsp : isspace d = false ∧ d ≠ 45 ∧ d ≠ 43 := by
    simp only [isdigit, Bool.and_eq_true, decide_eq_true_eq, UInt8.le_iff_toNat_le] at hd
    have h48 : 48 ≤ d.toNat := hd.1
    refine ⟨isspace_of_lt (by omega), ?_, ?_⟩
    · rintro rfl
      exact absurd h48 (by decide)
    · rintro rfl
      exact absurd h48 (by decide)
  unfold atoi
  rw [cstr_of_nulFree (decimal_nulFree n)]
  by_cases hneg : n < 0
  · have hdec : decimal n = 45 :: (Nat.toDigits 10 n.natAbs).map fun c => c.val.toUInt8 := by
      rw [decimal, if_pos hneg]
      rfl
    rw [hdec, List.dropWhile_cons_of_neg (by decide)]
    dsimp only
    split
    · rename_i h
      obtain ⟨-, rfl⟩ := List.cons.inj h
      rw [hvalue, Int.ofNat_natAbs_of_nonpos (Int.le_of_lt hneg), Int.neg_neg]
      exact hclamp
    · rename_i h
      exact absurd (List.cons.inj h).1 (by decide)
    · rename_i h _
      exact absurd rfl (h _)
  · have hdec : decimal n = (Nat.toDigits 10 n.natAbs).map fun c => c.val.toUInt8 := by
      rw [decimal, if_neg hneg, List.nil_append]
    rw [hdec, hds, List.dropWhile_cons_of_neg (by rw [hsp.1]; exact Bool.false_ne_true)]
    dsimp only
    split
    · rename_i h
      exact absurd (List.cons.inj h).1 hsp.2.1
    · rename_i h
      exact absurd (List.cons.inj h).1 hsp.2.2
    · rw [← hds, hvalue, Int.natAbs_of_nonneg (Int.not_lt.1 hneg)]
      exact hclamp

theorem atoi_range (m : Bytes) : -2 ^ 31 ≤ atoi m ∧ atoi m < 2 ^ 31 := by
  unfold atoi
  dsimp only
  generalize max (-2 ^ 63 : ℤ) _ = n
  have hlow := Int.le_bmod (x := n) (m := 2 ^ 32) (by decide)
  have hhigh := Int.bmod_lt (x := n) (m := 2 ^ 32) (by decide)
  omega

/-- An `int` has the low 32 bits, as they are or as a negative number. -/
theorem intOf_cases (n : ℕ) : n % 2 ^ 32 < 2 ^ 31 ∧ intOf n = (n % 2 ^ 32 : ℕ) ∨
    2 ^ 31 ≤ n % 2 ^ 32 ∧ intOf n < 0 := by
  have hm : ((2 ^ 32 : ℕ) : ℤ) = 4294967296 := rfl
  have h : intOf n = if (n : ℤ) % 4294967296 < (4294967296 + 1) / 2 then (n : ℤ) % 4294967296 else
      (n : ℤ) % 4294967296 - 4294967296 := by
    unfold intOf
    rw [Int.bmod_def, hm]
  rw [h]
  split <;> omega

theorem intOf_of_lt {n : ℕ} (h : n < 2 ^ 31) : intOf n = n := by
  rcases intOf_cases n with ⟨-, hn⟩ | ⟨hge, -⟩
  · rw [hn, Nat.mod_eq_of_lt (by omega)]
  · omega

/-- An addition that the `int` does not show. -/
theorem intOf_add_eq_iff {m k : ℕ} : intOf (m + k) = m ↔ m < 2 ^ 31 ∧ 2 ^ 32 ∣ k := by
  rcases intOf_cases (m + k) with ⟨hlt, hint⟩ | ⟨hge, hneg⟩
  · rw [hint]
    omega
  · constructor
    · intro h
      omega
    · omega

theorem lenOf_cstr (m : Bytes) : lenOf (cstr m) = lenOf m := by
  unfold lenOf
  rw [cstr_cstr]

theorem lenOf_of_lt {m : Bytes} (h : (cstr m).length < 2 ^ 31) : lenOf m = (cstr m).length :=
  intOf_of_lt h

/-! ## Comparison and search -/

theorem strcmp_iff {a b : Bytes} : strcmp a b = true ↔ cstr a = cstr b := by
  simp [strcmp]

theorem strncmp_iff {a b : Bytes} {n : ℕ} :
    strncmp a b n = true ↔ (cstr a).take n = (cstr b).take n := by
  simp [strncmp]

/-- Comparing with a string of length `n` tests whether it is a beginning. -/
theorem strncmp_iff_start {a b : Bytes} {n : ℕ} (ha : NulFree a) (hn : a.length = n) :
    strncmp a b n = true ↔ a <+: cstr b := by
  rw [strncmp_iff, cstr_of_nulFree ha, List.take_of_length_le (Nat.le_of_eq hn),
    List.prefix_iff_eq_take, hn]

theorem strstr_eq_none_iff {m pat : Bytes} : strstr m pat = none ↔ ¬ pat <:+: cstr m :=
  Search.find_eq_none_iff

theorem strrchr_eq_some {c : UInt8} {a b : Bytes} (ha : NulFree a) (hc : c ≠ 0) (hb : NulFree b)
    (hcb : c ∉ b) (r : Bytes) : strrchr (a ++ c :: b ++ 0 :: r) c = some a.length := by
  have hs : NulFree (a ++ c :: b) := by
    refine ha.append fun h => ?_
    rcases List.mem_cons.1 h with h | h
    · exact hc h.symm
    · exact hb h
  have hidx : (a ++ c :: b).reverse.idxOf c = b.length := by
    rw [List.reverse_append, List.reverse_cons, List.append_assoc,
      List.idxOf_append_of_notMem (by simpa using hcb), List.length_reverse]
    simp
  rw [strrchr, cstr_append_zero hs, if_pos (by simp), hidx]
  simp

theorem strrchr_eq_none {c : UInt8} {b : Bytes} (hb : NulFree b) (hcb : c ∉ b) (r : Bytes) :
    strrchr (b ++ 0 :: r) c = none := by
  rw [strrchr, cstr_append_zero hb, if_neg hcb]

end CString
