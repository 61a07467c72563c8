import Amigos.Lib.Bytes
import Mathlib.Logic.Function.Basic

/-!
# Numbers in decimal

`decimal` is the text of a number, `decimalValue` the number that digits stand for. Proofs about
the text go from the last digit (`decimal_of_lt`, `decimal_of_le`): its bytes are digits, there is
at least one, and the number is read back.
-/

set_option autoImplicit false

namespace Amigos.Lib

/-- The decimal digits of a number, in ASCII. -/
def decimal (n : ℕ) : Bytes := (Nat.toDigits 10 n).map fun ch => UInt8.ofNat ch.toNat

/-- The number that digits stand for. -/
def decimalValue (digits : Bytes) : ℕ := digits.foldl (fun n d => 10 * n + (d.toNat - 48)) 0

/-- The byte of one digit. -/
def digitByte (d : ℕ) : UInt8 := UInt8.ofNat (48 + d)

theorem toNat_digitByte {d : ℕ} (h : d < 10) : (digitByte d).toNat = 48 + d := by
  unfold digitByte
  rw [UInt8.toNat_ofNat', Nat.mod_eq_of_lt (by omega)]

theorem digitChar_byte {d : ℕ} (h : d < 10) :
    UInt8.ofNat (Nat.digitChar d).toNat = digitByte d := by
  revert d
  decide

/-- One digit. -/
theorem decimal_of_lt {n : ℕ} (h : n < 10) : decimal n = [digitByte n] := by
  unfold decimal
  rw [Nat.toDigits_of_lt_base h, List.map_singleton, digitChar_byte h]

/-- The last digit behind the others. -/
theorem decimal_of_le {n : ℕ} (h : 10 ≤ n) :
    decimal n = decimal (n / 10) ++ [digitByte (n % 10)] := by
  unfold decimal
  rw [Nat.toDigits_of_base_le (by decide) h, List.map_append, List.map_singleton,
    digitChar_byte (Nat.mod_lt n (by decide))]

/-- **By the last digit**: for numbers of one digit, and from what is in front of the last. -/
theorem decimal_induction {P : ℕ → Prop} (digit : ∀ n < 10, P n)
    (more : ∀ n, 10 ≤ n → P (n / 10) → P n) (n : ℕ) : P n := by
  induction n using Nat.strongRecOn with
  | ind n ih =>
    rcases Nat.lt_or_ge n 10 with h | h
    · exact digit n h
    · exact more n h (ih (n / 10) (by omega))

theorem decimal_ne_nil (n : ℕ) : decimal n ≠ [] := by
  rcases Nat.lt_or_ge n 10 with h | h
  · rw [decimal_of_lt h]
    exact List.cons_ne_nil _ _
  · rw [decimal_of_le h]
    exact List.append_ne_nil_of_right_ne_nil _ (List.cons_ne_nil _ _)

/-- A byte of a number's text is one of the ten digits. -/
theorem digit_of_mem_decimal {n : ℕ} {b : UInt8} (hb : b ∈ decimal n) :
    48 ≤ b.toNat ∧ b.toNat ≤ 57 := by
  have hdigit : ∀ {d}, d < 10 → 48 ≤ (digitByte d).toNat ∧ (digitByte d).toNat ≤ 57 := by
    intro d hd
    rw [toNat_digitByte hd]
    omega
  induction n using decimal_induction with
  | digit n h =>
    rw [decimal_of_lt h] at hb
    rw [List.mem_singleton.mp hb]
    exact hdigit h
  | more n h ih =>
    rw [decimal_of_le h] at hb
    rcases List.mem_append.mp hb with hfront | hlast
    · exact ih hfront
    · rw [List.mem_singleton.mp hlast]
      exact hdigit (Nat.mod_lt n (by decide))

theorem decimalValue_append (digits : Bytes) {d : ℕ} (h : d < 10) :
    decimalValue (digits ++ [digitByte d]) = 10 * decimalValue digits + d := by
  unfold decimalValue
  rw [List.foldl_append, List.foldl_cons, List.foldl_nil, toNat_digitByte h]
  omega

/-- **The number is read back.** -/
theorem decimalValue_decimal (n : ℕ) : decimalValue (decimal n) = n := by
  induction n using decimal_induction with
  | digit n h =>
    rw [decimal_of_lt h, ← List.nil_append [digitByte n], decimalValue_append [] h]
    exact Nat.zero_add n
  | more n h ih =>
    rw [decimal_of_le h, decimalValue_append _ (Nat.mod_lt n (by decide)), ih]
    exact Nat.div_add_mod n 10

theorem decimal_injective : Function.Injective decimal :=
  Function.LeftInverse.injective decimalValue_decimal

end Amigos.Lib
