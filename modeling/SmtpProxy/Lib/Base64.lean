/-
  Base 64 over any alphabet, as the standard describes it: the bits of the
  bytes, the most significant first, are cut into groups of six, of which the
  last is filled up with zeros; each is a character of the alphabet; and pads
  make the number of characters a multiple of four.

  * `encode alphabet pad l`, and `decode index pad`, which reads four characters
    at a time; `standard`, the usual alphabet;
  * `encode_group`, `encode_two`, `encode_one`: the encoding by groups of three
    bytes;
  * `decode_encode`: decoding gives the bytes back.
-/
import Mathlib.Data.List.Basic
import Mathlib.Data.Nat.Bitwise
import Mathlib.Data.Nat.Notation
import Mathlib.Tactic.Ring
import Mathlib.Tactic.TypeStar

namespace Base64

/-! ## Bits -/

/-- The `m` bits of `n` from the bit `k` on, the most significant first. -/
def window (n k : ℕ) : ℕ → List Bool
  | 0 => []
  | m + 1 => n.testBit (k + m) :: window n k m

/-- The number with these bits. -/
def value (bs : List Bool) : ℕ := bs.foldl (fun n b => 2 * n + b.toNat) 0

/-- The groups of six; the last is filled up with zeros. -/
def sextets : List Bool → List ℕ
  | a :: b :: c :: d :: e :: f :: bs => value [a, b, c, d, e, f] :: sextets bs
  | [] => []
  | bs => [value (bs ++ List.replicate (6 - bs.length) false)]

section
variable {n k m : ℕ} {bs l : List Bool}

theorem value_append : value (bs ++ l) = value bs * 2 ^ l.length + value l := by
  have hfold : ∀ (l : List Bool) (i : ℕ),
      l.foldl (fun n b => 2 * n + b.toNat) i = i * 2 ^ l.length + value l := by
    intro l
    induction l with
    | nil =>
      intro i
      simp [value]
    | cons b l ih =>
      intro i
      rw [value, List.foldl_cons, List.foldl_cons, ih, ih (2 * 0 + b.toNat), List.length_cons]
      ring
  exact List.foldl_append.trans (hfold _ _)

theorem length_window : (window n k m).length = m := by
  induction m with
  | zero => rfl
  | succ m ih => rw [window, List.length_cons, ih]

/-- A window is a digit. -/
theorem value_window : value (window n k m) = n / 2 ^ k % 2 ^ m := by
  induction m with
  | zero => rw [pow_zero, Nat.mod_one]; rfl
  | succ m ih =>
    have hhead : value (window n k (m + 1)) =
        value [n.testBit (k + m)] * 2 ^ m + value (window n k m) := by
      rw [window, ← List.singleton_append, value_append, length_window]
    have hbit : value [n.testBit (k + m)] = n / 2 ^ k / 2 ^ m % 2 := by
      rw [Nat.div_div_eq_div_mul, ← Nat.pow_add, ← Nat.toNat_testBit]
      simp [value]
    rw [hhead, ih, hbit, Nat.mod_pow_succ]
    ring

theorem sextets_append (h : bs.length = 6) : sextets (bs ++ l) = value bs :: sextets l := by
  obtain ⟨a, b, c, d, e, f, rfl⟩ : ∃ a b c d e f, bs = [a, b, c, d, e, f] := by
    match bs, h with
    | [a, b, c, d, e, f], _ => exact ⟨a, b, c, d, e, f, rfl⟩
  rfl

end

/-! ## Encoding -/

section
variable {α : Type*} (alphabet : ℕ → α) (index : α → Option ℕ) (pad : α)

def encode (l : List UInt8) : List α :=
  let cs := (sextets (l.flatMap fun b => window b.toNat 0 8)).map alphabet
  cs ++ List.replicate ((4 - cs.length % 4) % 4) pad

/-- Four characters are three bytes, or one or two if there are pads at the end. -/
def decode [DecidableEq α] : List α → Option (List UInt8)
  | [] => some []
  | a :: b :: c :: d :: cs => do
    let i ← index a
    let j ← index b
    if c = pad ∧ d = pad ∧ cs = [] then some [.ofNat (i * 4 + j / 16)]
    else
      let k ← index c
      if d = pad ∧ cs = [] then some [.ofNat (i * 4 + j / 16), .ofNat (j % 16 * 16 + k / 4)]
      else
        let m ← index d
        let l ← decode cs
        some (.ofNat (i * 4 + j / 16) :: .ofNat (j % 16 * 16 + k / 4) :: .ofNat (k % 4 * 64 + m) :: l)
  | _ => none

/-- The alphabet of the standard. -/
def standard (v : ℕ) : UInt8 :=
  if v < 26 then .ofNat (65 + v)  -- A to Z
  else if v < 52 then .ofNat (97 + (v - 26))  -- a to z
  else if v < 62 then .ofNat (48 + (v - 52))  -- 0 to 9
  else if v = 62 then 43 else 47  -- + and /

variable {alphabet index pad} {a b c : UInt8} {l : List UInt8}

/-- Windows that meet. -/
theorem value_windows {n k m n' k' m' : ℕ} : value (window n k m ++ window n' k' m') =
    n / 2 ^ k % 2 ^ m * 2 ^ m' + n' / 2 ^ k' % 2 ^ m' := by
  rw [value_append, length_window, value_window, value_window]

/-- A window that is filled up with zeros. -/
theorem value_filled {n k m j : ℕ} :
    value (window n k m ++ List.replicate j false) = n / 2 ^ k % 2 ^ m * 2 ^ j := by
  have hzero : ∀ j, value (List.replicate j false) = 0 := by
    intro j
    induction j with
    | zero => rfl
    | succ j ih =>
      rw [List.replicate_succ, ← List.singleton_append, value_append, ih]
      simp [value]
  rw [value_append, List.length_replicate, value_window, hzero, Nat.add_zero]

theorem sextets_group {bs : List Bool} :
    sextets (window a.toNat 0 8 ++ (window b.toNat 0 8 ++ (window c.toNat 0 8 ++ bs))) =
      a.toNat / 4 :: (a.toNat % 4 * 16 + b.toNat / 16) ::
        (b.toNat % 16 * 4 + c.toNat / 64) :: c.toNat % 64 :: sextets bs := by
  have ha := a.toNat_lt
  have hb := b.toNat_lt
  have hc := c.toNat_lt
  have hsplit : window a.toNat 0 8 ++ (window b.toNat 0 8 ++ (window c.toNat 0 8 ++ bs)) =
      window a.toNat 2 6 ++ ((window a.toNat 0 2 ++ window b.toNat 4 4) ++
        ((window b.toNat 0 4 ++ window c.toNat 6 2) ++ (window c.toNat 0 6 ++ bs))) := rfl
  rw [hsplit, sextets_append rfl, sextets_append rfl, sextets_append rfl, sextets_append rfl,
    value_window, value_windows, value_windows, value_window]
  congr 1
  · omega
  congr 1
  · omega
  congr 1
  · omega
  congr 1
  · omega

theorem sextets_two : sextets (window a.toNat 0 8 ++ window b.toNat 0 8) =
    [a.toNat / 4, a.toNat % 4 * 16 + b.toNat / 16, b.toNat % 16 * 4] := by
  have ha := a.toNat_lt
  have hb := b.toNat_lt
  have hsplit : window a.toNat 0 8 ++ window b.toNat 0 8 =
      window a.toNat 2 6 ++ ((window a.toNat 0 2 ++ window b.toNat 4 4) ++ window b.toNat 0 4) := rfl
  have hlast : sextets (window b.toNat 0 4) =
      [value (window b.toNat 0 4 ++ List.replicate 2 false)] := rfl
  rw [hsplit, sextets_append rfl, sextets_append rfl, hlast, value_window, value_windows,
    value_filled]
  congr 1
  · omega
  congr 1
  · omega
  congr 1
  · omega

theorem sextets_one : sextets (window a.toNat 0 8) = [a.toNat / 4, a.toNat % 4 * 16] := by
  have ha := a.toNat_lt
  have hsplit : window a.toNat 0 8 = window a.toNat 2 6 ++ window a.toNat 0 2 := rfl
  have hlast : sextets (window a.toNat 0 2) =
      [value (window a.toNat 0 2 ++ List.replicate 4 false)] := rfl
  rw [hsplit, sextets_append rfl, hlast, value_window, value_filled]
  congr 1
  · omega
  congr 1
  · omega

theorem encode_nil : encode alphabet pad [] = [] := by
  simp [encode, sextets]

theorem encode_one : encode alphabet pad [a] =
    [alphabet (a.toNat / 4), alphabet (a.toNat % 4 * 16), pad, pad] := by
  simp only [encode, List.flatMap_cons, List.flatMap_nil, List.append_nil, sextets_one]
  rfl

theorem encode_two : encode alphabet pad [a, b] =
    [alphabet (a.toNat / 4), alphabet (a.toNat % 4 * 16 + b.toNat / 16),
      alphabet (b.toNat % 16 * 4), pad] := by
  simp only [encode, List.flatMap_cons, List.flatMap_nil, List.append_nil, sextets_two]
  rfl

theorem encode_group : encode alphabet pad (a :: b :: c :: l) =
    alphabet (a.toNat / 4) :: alphabet (a.toNat % 4 * 16 + b.toNat / 16) ::
      alphabet (b.toNat % 16 * 4 + c.toNat / 64) :: alphabet (c.toNat % 64) ::
        encode alphabet pad l := by
  simp only [encode, List.flatMap_cons, sextets_group, List.map_cons, List.cons_append,
    List.length_cons]
  rw [Nat.add_assoc, Nat.add_assoc, Nat.add_assoc, Nat.add_mod_right]

/-- Four characters for three bytes, or for what is left of them. -/
theorem length_encode : ∀ l : List UInt8, (encode alphabet pad l).length = (l.length + 2) / 3 * 4
  | [] => by simp [encode_nil]
  | [a] => by simp [encode_one]
  | [a, b] => by simp [encode_two]
  | a :: b :: c :: l => by
    rw [encode_group]
    simp only [List.length_cons, length_encode l]
    omega

/-- The digits of an encoding are less than 64. -/
theorem sextets_lt : ∀ l : List UInt8,
    ∀ v ∈ sextets (l.flatMap fun b => window b.toNat 0 8), v < 64
  | [] => by simp [sextets]
  | [a] => by
    have ha := a.toNat_lt
    rw [List.flatMap_cons, List.flatMap_nil, List.append_nil, sextets_one]
    simp only [List.mem_cons, List.not_mem_nil, or_false]
    omega
  | [a, b] => by
    have ha := a.toNat_lt
    have hb := b.toNat_lt
    rw [List.flatMap_cons, List.flatMap_cons, List.flatMap_nil, List.append_nil, sextets_two]
    simp only [List.mem_cons, List.not_mem_nil, or_false]
    omega
  | a :: b :: c :: l => by
    have ha := a.toNat_lt
    have hb := b.toNat_lt
    have hc := c.toNat_lt
    have ih := sextets_lt l
    rw [List.flatMap_cons, List.flatMap_cons, List.flatMap_cons, sextets_group]
    simp only [List.mem_cons]
    rintro v (rfl | rfl | rfl | rfl | hv)
    · omega
    · omega
    · omega
    · omega
    · exact ih v hv

/-- An encoding consists of pads and characters of the alphabet. -/
theorem mem_encode {x : α} (h : x ∈ encode alphabet pad l) :
    x = pad ∨ ∃ v < 64, x = alphabet v := by
  rcases List.mem_append.1 h with h | h
  · obtain ⟨v, hv, rfl⟩ := List.mem_map.1 h
    exact .inr ⟨v, sextets_lt l v hv, rfl⟩
  · exact .inl (List.eq_of_mem_replicate h)

/-- The bytes of a group, from its digits. -/
theorem decode_digits {a b c : UInt8} :
    UInt8.ofNat (a.toNat / 4 * 4 + (a.toNat % 4 * 16 + b.toNat / 16) / 16) = a ∧
      UInt8.ofNat ((a.toNat % 4 * 16 + b.toNat / 16) % 16 * 16 +
        (b.toNat % 16 * 4 + c.toNat / 64) / 4) = b ∧
      UInt8.ofNat ((b.toNat % 16 * 4 + c.toNat / 64) % 4 * 64 + c.toNat % 64) = c := by
  have ha := a.toNat_lt
  have hb := b.toNat_lt
  have hc := c.toNat_lt
  have ha' : a.toNat / 4 * 4 + (a.toNat % 4 * 16 + b.toNat / 16) / 16 = a.toNat := by omega
  have hb' : (a.toNat % 4 * 16 + b.toNat / 16) % 16 * 16 +
      (b.toNat % 16 * 4 + c.toNat / 64) / 4 = b.toNat := by omega
  have hc' : (b.toNat % 16 * 4 + c.toNat / 64) % 4 * 64 + c.toNat % 64 = c.toNat := by omega
  rw [ha', hb', hc']
  exact ⟨a.ofNat_toNat, b.ofNat_toNat, c.ofNat_toNat⟩

/-- **Decoding gives the bytes back**, if the index is that of the alphabet. -/
theorem decode_encode [DecidableEq α] (hindex : ∀ v < 64, index (alphabet v) = some v)
    (hpad : ∀ v < 64, alphabet v ≠ pad) :
    ∀ l : List UInt8, decode index pad (encode alphabet pad l) = some l
  | [] => by
    rw [encode_nil]
    rfl
  | [a] => by
    have ha := a.toNat_lt
    have hdigits := decode_digits (a := a) (b := 0) (c := 0)
    rw [encode_one, decode, hindex _ (by omega), hindex _ (by omega)]
    simpa using hdigits.1
  | [a, b] => by
    have ha := a.toNat_lt
    have hb := b.toNat_lt
    obtain ⟨ha', hb', -⟩ := decode_digits (a := a) (b := b) (c := 0)
    have hc := hpad (b.toNat % 16 * 4) (by omega)
    simp only [UInt8.toNat_zero, Nat.zero_div, Nat.add_zero] at hb'
    rw [encode_two, decode, hindex _ (by omega), hindex _ (by omega), Option.bind_eq_bind,
      Option.bind_some, Option.bind_eq_bind, Option.bind_some, if_neg fun h => hc h.1,
      hindex _ (by omega), Option.bind_some, if_pos ⟨rfl, rfl⟩, ha', hb']
  | a :: b :: c :: l => by
    have ha := a.toNat_lt
    have hb := b.toNat_lt
    have hc := c.toNat_lt
    obtain ⟨ha', hb', hc'⟩ := decode_digits (a := a) (b := b) (c := c)
    have hd := hpad (c.toNat % 64) (by omega)
    rw [encode_group, decode, hindex _ (by omega), hindex _ (by omega), Option.bind_eq_bind,
      Option.bind_some, Option.bind_eq_bind, Option.bind_some, if_neg fun h => hd h.2.1,
      hindex _ (by omega), Option.bind_some, if_neg fun h => hd h.1,
      hindex _ (by omega), Option.bind_some, decode_encode hindex hpad l, Option.bind_some, ha',
      hb', hc']

end

end Base64
