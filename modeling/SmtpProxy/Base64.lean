/-
  `base64_encode` (smtp.c): what it writes, what it allocates, and the table
  `deMap` beside it.

  * `base64Outlen`: the computation of `outlen`, in `int`;
  * `base64Groups_eq`: the characters are the base 64 of the input;
  * `base64_decodes`: decoding with `deMap` gives the input back;
  * `base64Outlen_eq_some_iff`: the bytes written are those allocated.
-/
import SmtpProxy.Lib.Base64
import SmtpProxy.Smtp

namespace SmtpProxy

open CString

/-- An `int`, unless the operation overflows. -/
def int? (n : ℤ) : Option ℤ := if -2 ^ 31 ≤ n ∧ n < 2 ^ 31 then some n else none

/-- `outlen`, for `inlen` that is not negative. -/
def base64Outlen (inlen : ℤ) : Option ℤ := do
  let inlen ← int? inlen
  let outlen ← int? (inlen / 3 * 4)
  let outlen ← int? (outlen + 3)
  if inlen % 3 ≠ 0 then int? (outlen + 4) else some outlen

def BAD : ℤ := -1

def deMap : List ℤ := [
  BAD,BAD,BAD,BAD, BAD,BAD,BAD,BAD, BAD,BAD,BAD,BAD, BAD,BAD,BAD,BAD,
  BAD,BAD,BAD,BAD, BAD,BAD,BAD,BAD, BAD,BAD,BAD,BAD, BAD,BAD,BAD,BAD,
  BAD,BAD,BAD,BAD, BAD,BAD,BAD,BAD, BAD,BAD,BAD, 62, BAD,BAD,BAD, 63,
   52, 53, 54, 55,  56, 57, 58, 59,  60, 61,BAD,BAD, BAD,BAD,BAD,BAD,
  BAD,  0,  1,  2,   3,  4,  5,  6,   7,  8,  9, 10,  11, 12, 13, 14,
   15, 16, 17, 18,  19, 20, 21, 22,  23, 24, 25,BAD, BAD,BAD,BAD,BAD,
  BAD, 26, 27, 28,  29, 30, 31, 32,  33, 34, 35, 36,  37, 38, 39, 40,
   41, 42, 43, 44,  45, 46, 47, 48,  49, 50, 51,BAD, BAD,BAD,BAD,BAD,
  BAD,BAD,BAD,BAD, BAD,BAD,BAD,BAD, BAD,BAD,BAD,BAD, BAD,BAD,BAD,BAD,
  BAD,BAD,BAD,BAD, BAD,BAD,BAD,BAD, BAD,BAD,BAD,BAD, BAD,BAD,BAD,BAD,
  BAD,BAD,BAD,BAD, BAD,BAD,BAD,BAD, BAD,BAD,BAD,BAD, BAD,BAD,BAD,BAD,
  BAD,BAD,BAD,BAD, BAD,BAD,BAD,BAD, BAD,BAD,BAD,BAD, BAD,BAD,BAD,BAD,
  BAD,BAD,BAD,BAD, BAD,BAD,BAD,BAD, BAD,BAD,BAD,BAD, BAD,BAD,BAD,BAD,
  BAD,BAD,BAD,BAD, BAD,BAD,BAD,BAD, BAD,BAD,BAD,BAD, BAD,BAD,BAD,BAD,
  BAD,BAD,BAD,BAD, BAD,BAD,BAD,BAD, BAD,BAD,BAD,BAD, BAD,BAD,BAD,BAD,
  BAD,BAD,BAD,BAD, BAD,BAD,BAD,BAD, BAD,BAD,BAD,BAD, BAD,BAD,BAD,BAD]

/-- The value of a character; `none`: `BAD`. -/
def deMapAt (c : UInt8) : Option ℕ :=
  (deMap[c.toNat]?).bind fun v => if v = BAD then none else some v.toNat

/-- Four characters to three bytes, by `deMap`, with `=` as the pad. -/
def deMapDecode (cs : Bytes) : Option Bytes := Base64.decode deMapAt 61 cs

/-! ## The tables -/

theorem enMapAt_standard : ∀ v < 64, enMapAt (.ofNat v) = Base64.standard v := by
  decide

/-- `deMap` is the inverse of `enMap`, and the pad is in neither of them. -/
theorem deMapAt_standard : ∀ v < 64, deMapAt (Base64.standard v) = some v := by
  decide

theorem standard_ne_pad : ∀ v < 64, Base64.standard v ≠ 61 := by
  decide

theorem standard_nonzero : ∀ v < 64, Base64.standard v ≠ 0 := by
  decide

/-! ## The characters -/

section
variable {a b c : UInt8} {in_ : Bytes}

theorem toNat_shiftRight (a k : UInt8) : (a >>> k).toNat = a.toNat / 2 ^ (k.toNat % 8) := by
  rw [UInt8.toNat_shiftRight, Nat.shiftRight_eq_div_pow]

theorem toNat_shiftLeft (a k : UInt8) : (a <<< k).toNat = a.toNat * 2 ^ (k.toNat % 8) % 2 ^ 8 := by
  rw [UInt8.toNat_shiftLeft, Nat.shiftLeft_eq]

/-- The six bits that each character is chosen by, as digits. -/
theorem first_digit : (a >>> 2).toNat = a.toNat / 4 := toNat_shiftRight a 2

theorem second_high : ((a <<< 4) &&& (0x30 : UInt8)).toNat = a.toNat % 4 * 16 := by
  have hmask : ∀ n < 16, n * 16 &&& 48 = n % 4 * 16 := by decide
  have hshift : (a <<< 4).toNat = a.toNat % 16 * 16 := by
    rw [toNat_shiftLeft]
    change a.toNat * 16 % 256 = _
    omega
  rw [UInt8.toNat_and, hshift]
  change a.toNat % 16 * 16 &&& 48 = _
  rw [hmask _ (by omega)]
  omega

theorem third_high : ((b <<< 2) &&& (0x3c : UInt8)).toNat = b.toNat % 16 * 4 := by
  have hmask : ∀ n < 64, n * 4 &&& 60 = n % 16 * 4 := by decide
  have hshift : (b <<< 2).toNat = b.toNat % 64 * 4 := by
    rw [toNat_shiftLeft]
    change b.toNat * 4 % 256 = _
    omega
  rw [UInt8.toNat_and, hshift]
  change b.toNat % 64 * 4 &&& 60 = _
  rw [hmask _ (by omega)]
  omega

theorem second_digit : (((a <<< 4) &&& (0x30 : UInt8)) ||| (b >>> 4)).toNat =
    a.toNat % 4 * 16 + b.toNat / 16 := by
  have hor : ∀ i < 4, ∀ j < 16, i * 16 ||| j = i * 16 + j := by decide
  have hlt := b.toNat_lt
  have hb : (b >>> 4).toNat = b.toNat / 16 := toNat_shiftRight b 4
  rw [UInt8.toNat_or, second_high, hb]
  exact hor _ (by omega) _ (by omega)

theorem third_digit : (((b <<< 2) &&& (0x3c : UInt8)) ||| (c >>> 6)).toNat =
    b.toNat % 16 * 4 + c.toNat / 64 := by
  have hor : ∀ i < 16, ∀ j < 4, i * 4 ||| j = i * 4 + j := by decide
  have hlt := c.toNat_lt
  have hc : (c >>> 6).toNat = c.toNat / 64 := toNat_shiftRight c 6
  rw [UInt8.toNat_or, third_high, hc]
  exact hor _ (by omega) _ (by omega)

theorem fourth_digit : (c &&& (0x3f : UInt8)).toNat = c.toNat % 64 := by
  rw [UInt8.toNat_and]
  exact Nat.and_two_pow_sub_one_eq_mod c.toNat 6

/-- The character of a digit. -/
theorem enMapAt_eq {i : UInt8} {v : ℕ} (hi : i.toNat = v) (hv : v < 64) :
    enMapAt i = Base64.standard v := by
  rw [← enMapAt_standard v hv, ← hi, UInt8.ofNat_toNat]

/-- **The characters are the base 64 of the input.** -/
theorem base64Groups_eq : ∀ l : Bytes, base64Groups l = Base64.encode Base64.standard 61 l
  | [] => by
    rw [Base64.encode_nil]
    rfl
  | [a] => by
    have ha := a.toNat_lt
    have hor : ((a <<< 4) &&& (0x30 : UInt8)) ||| (0 : UInt8) = (a <<< 4) &&& (0x30 : UInt8) :=
      UInt8.or_zero
    rw [Base64.encode_one, base64Groups, hor, enMapAt_eq first_digit (by omega),
      enMapAt_eq second_high (by omega)]
  | [a, b] => by
    have ha := a.toNat_lt
    have hb := b.toNat_lt
    have hor : ((b <<< 2) &&& (0x3c : UInt8)) ||| (0 : UInt8) = (b <<< 2) &&& (0x3c : UInt8) :=
      UInt8.or_zero
    rw [Base64.encode_two, base64Groups, hor, enMapAt_eq first_digit (by omega),
      enMapAt_eq second_digit (by omega), enMapAt_eq third_high (by omega)]
  | a :: b :: c :: l => by
    have ha := a.toNat_lt
    have hb := b.toNat_lt
    have hc := c.toNat_lt
    rw [Base64.encode_group, base64Groups, enMapAt_eq first_digit (by omega),
      enMapAt_eq second_digit (by omega), enMapAt_eq third_digit (by omega),
      enMapAt_eq fourth_digit (by omega), base64Groups_eq l]

theorem base64Groups_nulFree : NulFree (base64Groups in_) := by
  intro h
  rw [base64Groups_eq] at h
  rcases Base64.mem_encode h with h | ⟨v, hv, h⟩
  · cases h
  · exact standard_nonzero v hv h.symm

/-- **Decoding with `deMap` gives the input back.** -/
theorem base64_decodes : deMapDecode (base64Groups in_) = some in_ := by
  rw [base64Groups_eq]
  exact Base64.decode_encode deMapAt_standard standard_ne_pad in_

/-! ## The allocation -/

theorem int?_eq_some_iff {n m : ℤ} : int? n = some m ↔ m = n ∧ -2 ^ 31 ≤ n ∧ n < 2 ^ 31 := by
  rw [int?]
  split
  · rename_i h
    exact ⟨fun he => ⟨(Option.some.inj he).symm, h⟩, fun he => congrArg some he.1.symm⟩
  · rename_i h
    exact ⟨nofun, fun he => absurd he.2 h⟩

/-- No operation overflows iff the result is an `int`. -/
theorem base64Outlen_eq_some_iff {n : ℕ} {m : ℤ} :
    base64Outlen n = some m ↔ m = ((n + 2) / 3 * 4 + 3 : ℕ) ∧ m < 2 ^ 31 := by
  simp only [base64Outlen, Option.bind_eq_bind, Option.bind_eq_some_iff, int?_eq_some_iff]
  constructor
  · rintro ⟨_, ⟨rfl, -⟩, _, ⟨rfl, -⟩, _, ⟨rfl, -, hlt⟩, hm⟩
    split at hm
    · obtain ⟨rfl, -, hlt'⟩ := int?_eq_some_iff.1 hm
      omega
    · obtain rfl := Option.some.inj hm
      omega
  · rintro ⟨rfl, hlt⟩
    refine ⟨_, ⟨rfl, by omega⟩, _, ⟨rfl, by omega⟩, _, ⟨rfl, by omega⟩, ?_⟩
    split
    · rw [int?_eq_some_iff]
      omega
    · congr 1
      omega

theorem length_base64_encode : (base64_encode in_).length = (in_.length + 2) / 3 * 4 + 3 := by
  rw [base64_encode, base64Groups_eq, List.length_append, Base64.length_encode]
  rfl

/-- **`base64_encode` is right for every input** that the computation of
    `outlen` does not overflow on: its characters are the base 64 of the input,
    then come CR LF and the NUL, which fill the allocation; and the characters
    decode to the input. -/
theorem base64_encode_correct (in_ : Bytes) (h : (in_.length + 2) / 3 * 4 + 3 < 2 ^ 31) :
    base64_encode in_ = Base64.encode Base64.standard 61 in_ ++ bytes "\r\n" ++ [0] ∧
      cstr (base64_encode in_) = Base64.encode Base64.standard 61 in_ ++ bytes "\r\n" ∧
      base64Outlen in_.length = some ((base64_encode in_).length : ℤ) ∧
      deMapDecode (Base64.encode Base64.standard 61 in_) = some in_ := by
  have heq : base64_encode in_ = base64Groups in_ ++ bytes "\r\n" ++ 0 :: [] := by
    rw [base64_encode, List.append_assoc]
    rfl
  have hfree : NulFree (base64Groups in_ ++ bytes "\r\n") :=
    base64Groups_nulFree.append (by decide)
  rw [← base64Groups_eq]
  refine ⟨heq, ?_, ?_, base64_decodes⟩
  · rw [heq]
    exact cstr_append_zero hfree []
  · rw [base64Outlen_eq_some_iff, length_base64_encode]
    exact ⟨rfl, by exact_mod_cast h⟩

theorem base64_encode_correct_foob :
    Base64.encode Base64.standard 61 (bytes "foob") = bytes "Zm9vYg==" ∧
      base64_encode (bytes "foob") =
        Base64.encode Base64.standard 61 (bytes "foob") ++ bytes "\r\n" ++ [0] ∧
      base64Outlen (bytes "foob").length = some ((base64_encode (bytes "foob")).length : ℤ) ∧
      deMapDecode (Base64.encode Base64.standard 61 (bytes "foob")) = some (bytes "foob") := by
  obtain ⟨htext, -, hlen, hdec⟩ := base64_encode_correct (bytes "foob") (by decide)
  exact ⟨by decide, htext, hlen, hdec⟩

end

end SmtpProxy
