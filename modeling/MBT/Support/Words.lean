import Mathlib.Algebra.Order.Group.Nat
import Mathlib.Algebra.Order.Ring.Nat
import Mathlib.Tactic.IntervalCases
import Mathlib.Tactic.Ring

/-!
# Support — Words

Numbers as bytes, in either order.

* `value_bytes`: a number that fits is read back.
* `unpack_append`, `unpack_bytes`: words of four bytes, one after the other.
* `bytes_eight`: a word of eight bytes is two words of four.
* `hexValue_toDigits`: a number is read back from its hexadecimal digits.
-/

namespace Words

/-- The bytes of a number, the least first. -/
def littleEndian : ℕ → ℕ → List UInt8
  | 0, _ => []
  | w + 1, n => UInt8.ofNat n :: littleEndian w (n / 256)

/-- The number of some bytes, the least first. -/
def littleValue : List UInt8 → ℕ
  | [] => 0
  | b :: bs => b.toNat + 256 * littleValue bs

/-- The bytes of a number; `big` is the order with the greatest first. -/
def bytes (big : Bool) (w n : ℕ) : List UInt8 :=
  if big then (littleEndian w n).reverse else littleEndian w n

/-- The number of some bytes. -/
def value (big : Bool) (bs : List UInt8) : ℕ := littleValue (if big then bs.reverse else bs)

/-- The words of four bytes; what is left over is dropped. -/
def unpack (big : Bool) : List UInt8 → List ℕ
  | a :: b :: c :: d :: bs => value big [a, b, c, d] :: unpack big bs
  | _ => []

@[simp] theorem length_littleEndian (w n : ℕ) : (littleEndian w n).length = w := by
  induction w generalizing n with
  | zero => rfl
  | succ w ih => rw [littleEndian, List.length_cons, ih]

@[simp] theorem length_bytes (big : Bool) (w n : ℕ) : (bytes big w n).length = w := by
  cases big <;> simp [bytes]

/-- A number is read back. -/
theorem littleValue_littleEndian {w n : ℕ} (h : n < 256 ^ w) :
    littleValue (littleEndian w n) = n := by
  induction w generalizing n with
  | zero =>
    rw [pow_zero, Nat.lt_one_iff] at h
    rw [h, littleEndian, littleValue]
  | succ w ih =>
    have hrest : n / 256 < 256 ^ w := by
      rw [pow_succ] at h
      exact Nat.div_lt_of_lt_mul (by omega)
    rw [littleEndian, littleValue, ih hrest, UInt8.toNat_ofNat']
    omega

/-- In either order. -/
theorem value_bytes (big : Bool) {w n : ℕ} (h : n < 256 ^ w) : value big (bytes big w n) = n := by
  cases big <;> simp [value, bytes, littleValue_littleEndian h]

/-- The low bytes, then the high ones. -/
theorem littleEndian_add (v w n : ℕ) :
    littleEndian (v + w) n = littleEndian v n ++ littleEndian w (n / 256 ^ v) := by
  induction v generalizing n with
  | zero => simp [littleEndian]
  | succ v ih =>
    rw [Nat.succ_add, littleEndian, littleEndian, ih, List.cons_append, Nat.div_div_eq_div_mul,
      pow_succ']

/-- Only the low bytes are written. -/
theorem littleEndian_mod (w n : ℕ) : littleEndian w (n % 256 ^ w) = littleEndian w n := by
  induction w generalizing n with
  | zero => rfl
  | succ w ih =>
    have hlow : UInt8.ofNat (n % 256 ^ (w + 1)) = UInt8.ofNat n := by
      rw [← UInt8.toNat_inj, UInt8.toNat_ofNat', UInt8.toNat_ofNat', pow_succ']
      exact Nat.mod_mod_of_dvd n (Dvd.intro _ rfl)
    have hhigh : n % 256 ^ (w + 1) / 256 = n / 256 % 256 ^ w := by
      rw [pow_succ', Nat.mod_mul_right_div_self]
    rw [littleEndian, littleEndian, hlow, hhigh, ih]

/-- Eight bytes are two words of four, the lower one first or last. -/
theorem bytes_eight (big : Bool) (n : ℕ) : bytes big 8 n =
    if big then bytes big 4 (n / 2 ^ 32) ++ bytes big 4 (n % 2 ^ 32)
    else bytes big 4 (n % 2 ^ 32) ++ bytes big 4 (n / 2 ^ 32) := by
  have hsplit := littleEndian_add 4 4 n
  have hlow : littleEndian 4 (n % 2 ^ 32) = littleEndian 4 n := littleEndian_mod 4 n
  have hpow : (256 : ℕ) ^ 4 = 2 ^ 32 := by norm_num
  rw [hpow] at hsplit
  cases big
  · simp only [bytes, Bool.false_eq_true, if_false, hlow]
    exact hsplit
  · simp only [bytes, if_true, hlow, ← List.reverse_append]
    exact congrArg List.reverse hsplit

/-- Four bytes make a word. -/
theorem length_unpack (big : Bool) (bs : List UInt8) : (unpack big bs).length = bs.length / 4 := by
  induction bs using unpack.induct with
  | case1 a b c d bs ih =>
    simp only [unpack, List.length_cons, ih]
    omega
  | case2 bs hshort =>
    match bs, hshort with
    | [], _ => rfl
    | [_], _ => simp [unpack]
    | [_, _], _ => simp [unpack]
    | [_, _, _], _ => simp [unpack]
    | a :: b :: c :: d :: bs, hshort => exact absurd rfl (hshort a b c d bs)

/-- Whole words, and what comes after them. -/
theorem unpack_append (big : Bool) {bs : List UInt8} (h : 4 ∣ bs.length) (bs' : List UInt8) :
    unpack big (bs ++ bs') = unpack big bs ++ unpack big bs' := by
  induction bs using unpack.induct with
  | case1 a b c d bs ih =>
    have hrest : 4 ∣ bs.length := by
      simp only [List.length_cons] at h
      omega
    simp only [List.cons_append, unpack, ih hrest]
  | case2 bs hshort =>
    -- fewer than four bytes are none
    match bs, hshort, h with
    | [], _, _ => rfl
    | [_], _, h => simp at h
    | [_, _], _, h => simp at h
    | [_, _, _], _, h => simp at h
    | a :: b :: c :: d :: bs, hshort, _ => exact absurd rfl (hshort a b c d bs)

/-- The first word, then the others. -/
theorem unpack_bytes (big : Bool) {n : ℕ} (h : n < 2 ^ 32) (bs : List UInt8) :
    unpack big (bytes big 4 n ++ bs) = n :: unpack big bs := by
  have hvalue := value_bytes big (w := 4) h
  rw [unpack_append big (by rw [length_bytes])]
  match hbytes : bytes big 4 n, length_bytes big 4 n, hvalue with
  | [a, b, c, d], _, hvalue => rw [unpack, hvalue]; rfl

/-- One word. -/
theorem unpack_word (big : Bool) {n : ℕ} (h : n < 2 ^ 32) : unpack big (bytes big 4 n) = [n] := by
  have hword := unpack_bytes big h []
  rw [List.append_nil] at hword
  rw [hword, unpack]
  simp

/-! ### Hexadecimal digits -/

/-- The value of a hexadecimal digit. -/
def hexDigit (c : Char) : ℕ := if c.toNat < 97 then c.toNat - 48 else c.toNat - 87

/-- The number that hexadecimal digits write. -/
def hexValue (cs : List Char) : ℕ := cs.foldl (fun n c => 16 * n + hexDigit c) 0

/-- The value of a digit that is written. -/
theorem hexDigit_digitChar {d : ℕ} (h : d < 16) : hexDigit d.digitChar = d := by
  interval_cases d <;> rfl

/-- One digit more. -/
theorem hexValue_append_digit (cs : List Char) (c : Char) :
    hexValue (cs ++ [c]) = 16 * hexValue cs + hexDigit c := by
  rw [hexValue, List.foldl_append]
  rfl

/-- A number is read back from its digits. -/
theorem hexValue_toDigits (n : ℕ) : hexValue (Nat.toDigits 16 n) = n := by
  induction n using Nat.strong_induction_on with
  | _ n ih =>
    rcases Nat.lt_or_ge n 16 with hsmall | hlarge
    · rw [Nat.toDigits_of_lt_base hsmall, hexValue, List.foldl_cons, List.foldl_nil,
        hexDigit_digitChar hsmall, Nat.mul_zero, Nat.zero_add]
    · have hdigit := hexDigit_digitChar (Nat.mod_lt n (by norm_num : 0 < 16))
      rw [Nat.toDigits_of_base_le (by norm_num) hlarge, hexValue_append_digit, hdigit,
        ih (n / 16) (by omega)]
      exact Nat.div_add_mod n 16

/-- Zeros in front do not matter. -/
theorem hexValue_zeros (k : ℕ) (cs : List Char) :
    hexValue (List.replicate k '0' ++ cs) = hexValue cs := by
  induction k with
  | zero => rfl
  | succ k ih =>
    rw [← ih, List.replicate_succ, List.cons_append, hexValue, List.foldl_cons]
    rfl

/-- A digit is no separator. -/
theorem digit_of_mem_toDigits {n : ℕ} {c : Char} (h : c ∈ Nat.toDigits 16 n) : ∃ d < 16, c = d.digitChar := by
  induction n using Nat.strong_induction_on with
  | _ n ih =>
    rcases Nat.lt_or_ge n 16 with hsmall | hlarge
    · rw [Nat.toDigits_of_lt_base hsmall, List.mem_singleton] at h
      exact ⟨n, hsmall, h⟩
    · rw [Nat.toDigits_of_base_le (by norm_num) hlarge, List.mem_append, List.mem_singleton] at h
      rcases h with h | h
      · exact ih (n / 16) (by omega) h
      · exact ⟨n % 16, Nat.mod_lt n (by norm_num), h⟩

end Words
