import Mathlib.Data.Nat.Digits.Lemmas
import Mathlib.Tactic.Common
import Mathlib.Tactic.Ring

/-!
Contract: unsigned numbers as bytes, most significant first.

Owns: `value`, the number of a byte string; `minimal`, the string without its leading zeros;
`ofNat`, the shortest string of a number; and how the length of a string without leading
zeros bounds its number from both sides.
-/

namespace Infernode.Bigendian

open List

def value (bytes : List UInt8) : Nat := Nat.ofDigits 256 (bytes.reverse.map UInt8.toNat)

def minimal (bytes : List UInt8) : List UInt8 := bytes.dropWhile (· == 0)

def Minimal (bytes : List UInt8) : Prop := bytes.head? ≠ some 0

def ofNat (n : Nat) : List UInt8 := ((Nat.digits 256 n).map UInt8.ofNat).reverse

@[simp] theorem value_nil : value [] = 0 := rfl

theorem value_concat (front : List UInt8) (last : UInt8) :
    value (front ++ [last]) = last.toNat + 256 * value front := by
  simp [value, Nat.ofDigits_cons]

theorem value_cons (first : UInt8) (rest : List UInt8) :
    value (first :: rest) = first.toNat * 256 ^ rest.length + value rest := by
  unfold value
  rw [reverse_cons, map_append, Nat.ofDigits_append]
  simp [Nat.ofDigits_singleton]
  ring

theorem value_lt (bytes : List UInt8) : value bytes < 256 ^ bytes.length := by
  have digits : ∀ d ∈ bytes.reverse.map UInt8.toNat, d < 256 := by
    intro _ member
    obtain ⟨b, _, rfl⟩ := mem_map.1 member
    exact b.toNat_lt
  have below := Nat.ofDigits_lt_base_pow_length (by decide) digits
  rwa [length_map, length_reverse] at below

@[simp] theorem value_minimal (bytes : List UInt8) : value (minimal bytes) = value bytes := by
  induction bytes with
  | nil => rfl
  | cons first rest ih =>
    by_cases zero : first = 0
    · have dropped : minimal (first :: rest) = minimal rest := by simp [minimal, zero]
      rw [dropped, ih, value_cons, zero]
      simp
    · have kept : minimal (first :: rest) = first :: rest := by simp [minimal, zero]
      rw [kept]

theorem minimal_minimal (bytes : List UInt8) : Minimal (minimal bytes) := by
  intro leading
  have stops := head?_dropWhile_not (· == (0 : UInt8)) bytes
  unfold minimal at leading
  rw [leading] at stops
  exact absurd stops (by decide)

/-- Without leading zeros a longer string writes a larger number. -/
theorem pow_le_value {first : UInt8} {rest : List UInt8} (noZero : Minimal (first :: rest)) :
    256 ^ rest.length ≤ value (first :: rest) := by
  have nonzero : first ≠ 0 := fun zero => noZero (by rw [zero]; rfl)
  have positive : 0 < first.toNat := by
    have : first.toNat ≠ 0 := fun zero => nonzero (UInt8.toNat_inj.1 zero)
    omega
  rw [value_cons]
  calc 256 ^ rest.length = 1 * 256 ^ rest.length := (Nat.one_mul _).symm
    _ ≤ first.toNat * 256 ^ rest.length := Nat.mul_le_mul_right _ positive
    _ ≤ first.toNat * 256 ^ rest.length + value rest := Nat.le_add_right _ _

theorem length_le_iff {bytes : List UInt8} (noZero : Minimal bytes) (width : Nat) :
    bytes.length ≤ width ↔ value bytes < 256 ^ width := by
  constructor
  · intro short
    exact (value_lt bytes).trans_le (Nat.pow_le_pow_right (by decide) short)
  intro small
  cases bytes with
  | nil => exact Nat.zero_le _
  | cons _ _ =>
    have powers := (pow_le_value noZero).trans_lt small
    have shorter := (Nat.pow_lt_pow_iff_right (by decide)).1 powers
    simpa using shorter

/-- Of two strings without leading zeros the shorter writes the smaller number. -/
theorem value_lt_of_length_lt {left right : List UInt8} (noZero : Minimal right)
    (shorter : left.length < right.length) : value left < value right := by
  cases right with
  | nil => exact absurd shorter (Nat.not_lt_zero _)
  | cons _ rest =>
    have bound : left.length ≤ rest.length := by simpa [Nat.lt_succ_iff] using shorter
    exact ((value_lt left).trans_le (Nat.pow_le_pow_right (by decide) bound)).trans_le
      (pow_le_value noZero)

@[simp] theorem value_ofNat (n : Nat) : value (ofNat n) = n := by
  have same : ((Nat.digits 256 n).map UInt8.ofNat).map UInt8.toNat = Nat.digits 256 n := by
    rw [map_map]
    refine (map_congr_left ?_).trans (map_id _)
    intro digit member
    have small : digit < 256 := Nat.digits_lt_base (by decide) member
    simpa using Nat.mod_eq_of_lt small
  unfold value ofNat
  rw [reverse_reverse, same, Nat.ofDigits_digits]

/-- A string without leading zeros is the shortest string of its number. -/
theorem ofNat_value {bytes : List UInt8} (noZero : Minimal bytes) :
    ofNat (value bytes) = bytes := by
  have bounded : ∀ d ∈ bytes.reverse.map UInt8.toNat, d < 256 := by
    intro _ member
    obtain ⟨b, _, rfl⟩ := mem_map.1 member
    exact b.toNat_lt
  have topDigit : ∀ nonempty : bytes.reverse.map UInt8.toNat ≠ [],
      (bytes.reverse.map UInt8.toNat).getLast nonempty ≠ 0 := by
    intro nonempty zero
    apply noZero
    cases bytes with
    | nil => exact absurd rfl nonempty
    | cons first _ =>
      have last : first.toNat = (0 : UInt8).toNat := by simpa using zero
      rw [head?_cons, UInt8.toNat_inj.1 last]
  have written : (Nat.digits 256 (value bytes)).map UInt8.ofNat = bytes.reverse := by
    unfold value
    rw [Nat.digits_ofDigits 256 (by decide) _ bounded topDigit, map_map]
    exact (map_congr_left fun b _ => UInt8.ofNat_toNat).trans (map_id _)
  unfold ofNat
  rw [written, reverse_reverse]

theorem minimal_ofNat (n : Nat) : Minimal (ofNat n) := by
  have same := ofNat_value (minimal_minimal (ofNat n))
  rw [value_minimal, value_ofNat] at same
  rw [same]
  exact minimal_minimal (ofNat n)

theorem value_replicate_append (n : Nat) (bytes : List UInt8) :
    value (List.replicate n 0 ++ bytes) = value bytes := by
  induction n with
  | zero => rfl
  | succ _ ih =>
    rw [replicate_succ, cons_append, value_cons, ih]
    simp

end Infernode.Bigendian
