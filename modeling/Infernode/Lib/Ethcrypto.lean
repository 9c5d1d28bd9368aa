import Infernode.Codec.Bigendian
import Infernode.Text.Decimal

/-!
The number and address functions of `appl/lib/ethcrypto.b`.

Owns: `hexdecode`, `hexencode`, `strtoaddr`, and the unsigned numbers as byte arrays that
payments and budgets are kept in: `dectobe`, `becmp` and `beadd`, with the numbers they
stand for.
-/

namespace Infernode.Ethcrypto

open Text Bigendian List

abbrev Bytes := List UInt8

/-! ### Hexadecimal -/

def hextoval (c : Nat) : Option Nat :=
  if 48 ≤ c ∧ c ≤ 57 then some (c - 48)
  else if 97 ≤ c ∧ c ≤ 102 then some (c - 97 + 10)
  else if 65 ≤ c ∧ c ≤ 70 then some (c - 65 + 10)
  else none

/-- The text without `0x` in front. -/
def strip0x : Str → Str
  | 48 :: 120 :: rest => rest
  | 48 :: 88 :: rest => rest
  | s => s

/-- One byte for each two digits; a digit too many at the end is not looked at. -/
def hexpairs : Str → Option Bytes
  | high :: low :: rest => do
      let hi ← hextoval high
      let lo ← hextoval low
      let others ← hexpairs rest
      return UInt8.ofNat (hi * 16 + lo) :: others
  | _ => some []

def hexdecode (s : Str) : Option Bytes :=
  if s.length % 2 ≠ 0 then none else hexpairs (strip0x s)

def hexdigit (v : Nat) : Nat := if v < 10 then 48 + v else 87 + v

def hexencode (b : Bytes) : Str :=
  b.flatMap fun byte => [hexdigit (byte.toNat / 16), hexdigit (byte.toNat % 16)]

/-- The prefix is taken off here, and once more by `hexdecode`. -/
def strtoaddr (s : Str) : Option Bytes :=
  let s := strip0x s
  if s.length ≠ 40 then none else hexdecode s

/-! ### Unsigned numbers -/

/-- A decimal text as a number of at most 256 bits. -/
def dectobe (s : Str) : Option Bytes :=
  if s = [] ∨ 78 < s.length then none
  else if s.all isDigit then
    let b := minimal (ofNat (natOfDigits s))
    if 32 < b.length then none else some b
  else none

def becmploop : Bytes → Bytes → Int
  | a :: as, b :: bs =>
    if a ≠ b then if a.toNat < b.toNat then -1 else 1 else becmploop as bs
  | _, _ => 0

def becmp (a b : Bytes) : Int :=
  let a := minimal a
  let b := minimal b
  if a.length ≠ b.length then if a.length < b.length then -1 else 1 else becmploop a b

/-- The digits of a sum, lowest first, with the last carry on top. -/
def beaddloop : Bytes → Bytes → Nat → Bytes
  | [], [], carry => [UInt8.ofNat carry]
  | a :: as, [], carry =>
    let sum := a.toNat + carry
    UInt8.ofNat sum :: beaddloop as [] (sum / 256)
  | [], b :: bs, carry =>
    let sum := b.toNat + carry
    UInt8.ofNat sum :: beaddloop [] bs (sum / 256)
  | a :: as, b :: bs, carry =>
    let sum := a.toNat + b.toNat + carry
    UInt8.ofNat sum :: beaddloop as bs (sum / 256)

def beadd (a b : Bytes) : Option Bytes :=
  let r := minimal (beaddloop (minimal a).reverse (minimal b).reverse 0).reverse
  if 32 < r.length then none else some r

def betodec (b : Bytes) : Str := natDigits (value b)

/-! ### What they compute -/

variable {s : Str} {b : Bytes}

theorem dectobe_eq_some (decoded : dectobe s = some b) :
    s ≠ [] ∧ s.length ≤ 78 ∧ s.all isDigit = true ∧ value b = natOfDigits s ∧
      natOfDigits s < 2 ^ 256 := by
  unfold dectobe at decoded
  split at decoded
  · cases decoded
  rename_i sized
  rw [not_or, Nat.not_lt] at sized
  split at decoded
  · rename_i digits
    simp only at decoded
    split at decoded
    · cases decoded
    rename_i short
    cases decoded
    have bound := (length_le_iff (minimal_minimal (ofNat (natOfDigits s))) 32).1
      (Nat.not_lt.1 short)
    rw [value_minimal, value_ofNat] at bound ⊢
    exact ⟨sized.1, sized.2, digits, rfl, bound.trans_eq (by norm_num)⟩
  · cases decoded

theorem dectobe_of_digits (nonempty : s ≠ []) (short : s.length ≤ 78)
    (digits : s.all isDigit = true) (small : natOfDigits s < 2 ^ 256) :
    ∃ b, dectobe s = some b ∧ value b = natOfDigits s := by
  have fits : ¬32 < (minimal (ofNat (natOfDigits s))).length := by
    rw [Nat.not_lt, length_le_iff (minimal_minimal _), value_minimal, value_ofNat]
    exact small.trans_eq (by norm_num)
  refine ⟨minimal (ofNat (natOfDigits s)), ?_, by rw [value_minimal, value_ofNat]⟩
  unfold dectobe
  rw [if_neg (by rw [not_or, Nat.not_lt]; exact ⟨nonempty, short⟩), if_pos digits]
  exact if_neg fits

/-- Strings of one length are ordered as their numbers. -/
theorem becmploop_spec : ∀ {a b : Bytes}, a.length = b.length →
    (becmploop a b = -1 ↔ value a < value b) ∧ (becmploop a b = 1 ↔ value b < value a)
  | [], [], _ => by simp [becmploop]
  | a :: as, b :: bs, same => by
    have shorter : as.length = bs.length := by simpa using same
    have left := value_lt as
    have right := value_lt bs
    rw [value_cons, value_cons, shorter]
    rw [shorter] at left
    unfold becmploop
    by_cases equal : a = b
    · subst equal
      rw [if_neg (by simp)]
      have rest := becmploop_spec shorter
      rw [rest.1, rest.2]
      omega
    have different : a.toNat ≠ b.toNat := fun h => equal (UInt8.toNat_inj.1 h)
    rw [if_pos equal]
    by_cases less : a.toNat < b.toNat
    · rw [if_pos less]
      have step : (a.toNat + 1) * 256 ^ bs.length ≤ b.toNat * 256 ^ bs.length :=
        Nat.mul_le_mul_right _ less
      rw [Nat.succ_mul] at step
      omega
    rw [if_neg less]
    have greater : b.toNat + 1 ≤ a.toNat := by omega
    have step : (b.toNat + 1) * 256 ^ bs.length ≤ a.toNat * 256 ^ bs.length :=
      Nat.mul_le_mul_right _ greater
    rw [Nat.succ_mul] at step
    omega

theorem becmploop_range : ∀ a b : Bytes,
    becmploop a b = -1 ∨ becmploop a b = 0 ∨ becmploop a b = 1
  | a :: as, b :: bs => by
    unfold becmploop
    split_ifs
    · exact Or.inl rfl
    · exact Or.inr (Or.inr rfl)
    · exact becmploop_range as bs
  | [], _ => Or.inr (Or.inl rfl)
  | _ :: _, [] => Or.inr (Or.inl rfl)

theorem becmp_pos_iff (a b : Bytes) : 0 < becmp a b ↔ value b < value a := by
  rw [← value_minimal a, ← value_minimal b]
  unfold becmp
  simp only
  by_cases same : (minimal a).length = (minimal b).length
  · rw [if_neg (not_not.2 same)]
    have ordered := becmploop_spec same
    have range := becmploop_range (minimal a) (minimal b)
    rw [← ordered.2]
    omega
  rw [if_pos same]
  by_cases shorter : (minimal a).length < (minimal b).length
  · rw [if_pos shorter]
    have less := value_lt_of_length_lt (minimal_minimal b) shorter
    omega
  rw [if_neg shorter]
  have longer : (minimal b).length < (minimal a).length := by omega
  have greater := value_lt_of_length_lt (minimal_minimal a) longer
  omega

private theorem value_digit {low : Bytes} {high : Nat} (sum : Nat)
    (rest : value low.reverse = high + sum / 256) :
    value (UInt8.ofNat sum :: low).reverse = 256 * high + sum := by
  rw [reverse_cons, value_concat, rest]
  simp only [UInt8.toNat_ofNat']
  omega

theorem beaddloop_spec : ∀ (a b : Bytes) (carry : Nat), carry < 2 →
    value (beaddloop a b carry).reverse = value a.reverse + value b.reverse + carry
  | [], [], carry, small => by
    have byte : carry < 256 := by omega
    simpa [beaddloop, value_cons] using byte
  | a :: as, [], carry, small => by
    have byte := a.toNat_lt
    have rest := beaddloop_spec as [] ((a.toNat + carry) / 256) (by omega)
    rw [beaddloop, value_digit (a.toNat + carry) rest, reverse_cons, value_concat]
    simp only [reverse_nil, value_nil]
    omega
  | [], b :: bs, carry, small => by
    have byte := b.toNat_lt
    have rest := beaddloop_spec [] bs ((b.toNat + carry) / 256) (by omega)
    rw [beaddloop, value_digit (b.toNat + carry) rest, reverse_cons, value_concat]
    simp only [reverse_nil, value_nil]
    omega
  | a :: as, b :: bs, carry, small => by
    have left := a.toNat_lt
    have right := b.toNat_lt
    have rest := beaddloop_spec as bs ((a.toNat + b.toNat + carry) / 256) (by omega)
    rw [beaddloop, value_digit (a.toNat + b.toNat + carry) rest, reverse_cons, value_concat,
      reverse_cons, value_concat]
    omega

private theorem value_beaddloop (a b : Bytes) :
    value (beaddloop (minimal a).reverse (minimal b).reverse 0).reverse = value a + value b := by
  rw [beaddloop_spec _ _ 0 (by decide), reverse_reverse, reverse_reverse, value_minimal,
    value_minimal, Nat.add_zero]

/-- The sum is refused exactly when it does not fit in 256 bits. -/
theorem beadd_eq_none_iff (a b : Bytes) : beadd a b = none ↔ 2 ^ 256 ≤ value a + value b := by
  have fits := length_le_iff
    (minimal_minimal (beaddloop (minimal a).reverse (minimal b).reverse 0).reverse) 32
  rw [value_minimal, value_beaddloop] at fits
  have width : (256 : Nat) ^ 32 = 2 ^ 256 := by norm_num
  unfold beadd
  simp only
  split
  · rename_i long
    simp only [true_iff]
    omega
  · rename_i short
    simp only [reduceCtorEq, false_iff]
    omega

theorem beadd_eq_some {a sum : Bytes} (added : beadd a b = some sum) :
    value sum = value a + value b ∧ value a + value b < 2 ^ 256 := by
  have fits : ¬2 ^ 256 ≤ value a + value b := by
    rw [← beadd_eq_none_iff, added]
    simp
  refine ⟨?_, Nat.not_le.1 fits⟩
  unfold beadd at added
  simp only at added
  split at added
  · cases added
  · cases added
    rw [value_minimal, value_beaddloop]

/-! ### Addresses -/

theorem length_hexpairs : ∀ {s : Str} {b : Bytes}, hexpairs s = some b → s.length / 2 = b.length
  | [], b, decoded => by
    cases decoded
    rfl
  | [_], b, decoded => by
    cases decoded
    simp
  | high :: low :: rest, b, decoded => by
    unfold hexpairs at decoded
    simp only [Option.bind_eq_bind, Option.bind_eq_some_iff, Option.pure_def] at decoded
    have ⟨_, _, _, _, _, decodedRest, same⟩ := decoded
    cases same
    have shorter := length_hexpairs decodedRest
    simp only [length_cons]
    omega

theorem hextoval_bound {c v : Nat} (digit : hextoval c = some v) : 48 ≤ c ∧ c < 103 ∧ v < 16 := by
  unfold hextoval at digit
  split_ifs at digit <;> cases digit <;> omega

theorem hexpairs_chars : ∀ {s : Str} {b : Bytes}, hexpairs s = some b → s.length % 2 = 0 →
    ∀ c ∈ s, 48 ≤ c ∧ c < 103
  | [], _, _, _ => by simp
  | [_], _, _, even => by simp at even
  | high :: low :: rest, b, decoded, even => by
    unfold hexpairs at decoded
    simp only [Option.bind_eq_bind, Option.bind_eq_some_iff, Option.pure_def] at decoded
    have ⟨_, highDigit, _, lowDigit, _, decodedRest, _⟩ := decoded
    have restEven : rest.length % 2 = 0 := by
      simp only [length_cons] at even
      omega
    have highBound := hextoval_bound highDigit
    have lowBound := hextoval_bound lowDigit
    have restBounds := hexpairs_chars decodedRest restEven
    simp only [forall_mem_cons]
    exact ⟨⟨highBound.1, highBound.2.1⟩, ⟨lowBound.1, lowBound.2.1⟩, restBounds⟩

/-- What is left without the prefix, and what was there before. -/
theorem strip0x_cases (s : Str) : strip0x s = s ∨
    (∃ rest, s = 48 :: 120 :: rest ∧ strip0x s = rest) ∨
    ∃ rest, s = 48 :: 88 :: rest ∧ strip0x s = rest := by
  unfold strip0x
  split
  · exact Or.inr (Or.inl ⟨_, rfl, rfl⟩)
  · exact Or.inr (Or.inr ⟨_, rfl, rfl⟩)
  · exact Or.inl rfl

private theorem strip0x_chars (chars : ∀ c ∈ strip0x s, 48 ≤ c ∧ c < 121) :
    ∀ c ∈ s, 48 ≤ c ∧ c < 121 := by
  rcases strip0x_cases s with same | ⟨rest, rfl, same⟩ | ⟨rest, rfl, same⟩
  · rwa [same] at chars
  · rw [same] at chars
    simpa using chars
  · rw [same] at chars
    simpa using chars

/-- The text of an address is made of hexadecimal digits and at most two prefixes. -/
theorem strtoaddr_chars (decoded : strtoaddr s = some b) : ∀ c ∈ s, 48 ≤ c ∧ c < 121 := by
  unfold strtoaddr hexdecode at decoded
  simp only at decoded
  split at decoded
  · cases decoded
  rename_i sized
  split at decoded
  · cases decoded
  rename_i even
  have stripped : (strip0x (strip0x s)).length % 2 = 0 := by
    have whole : (strip0x s).length = 40 := not_not.1 sized
    rcases strip0x_cases (strip0x s) with same | ⟨rest, shape, same⟩ | ⟨rest, shape, same⟩
    · rw [same, whole]
    · rw [shape] at whole
      rw [same]
      simp only [length_cons] at whole
      omega
    rw [shape] at whole
    rw [same]
    simp only [length_cons] at whole
    omega
  refine strip0x_chars (strip0x_chars ?_)
  intro c member
  have bounds := hexpairs_chars decoded stripped c member
  omega


theorem length_dectobe (decoded : dectobe s = some b) : b.length ≤ 32 := by
  unfold dectobe at decoded
  split at decoded
  · cases decoded
  split at decoded
  · simp only at decoded
    split at decoded
    · cases decoded
    · rename_i short
      cases decoded
      exact Nat.not_lt.1 short
  · cases decoded

/-- Every number of 256 bits can be read back. -/
theorem dectobe_natDigits {n : Nat} (small : n < 2 ^ 256) :
    ∃ b, dectobe (natDigits n) = some b ∧ value b = n := by
  have short : (natDigits n).length ≤ 78 := by
    rw [natDigits, length_map, Nat.length_toDigits_le_iff (by decide) (by decide)]
    exact small.trans (by norm_num)
  have digits : (natDigits n).all isDigit = true :=
    all_eq_true.2 fun c member => isDigit_of_mem_natDigits member
  obtain ⟨b, decoded, read⟩ := dectobe_of_digits (natDigits_ne_nil n) short digits
    (by rwa [natOfDigits_natDigits])
  exact ⟨b, decoded, by rw [read, natOfDigits_natDigits]⟩

/-- An address has 20 bytes, or 19 where a second prefix took the place of one. -/
theorem length_strtoaddr (decoded : strtoaddr s = some b) : b.length = 20 ∨ b.length = 19 := by
  unfold strtoaddr hexdecode at decoded
  simp only at decoded
  split at decoded
  · cases decoded
  rename_i sized
  have whole : (strip0x s).length = 40 := not_not.1 sized
  split at decoded
  · cases decoded
  have halved := length_hexpairs decoded
  rcases strip0x_cases (strip0x s) with same | ⟨rest, shape, same⟩ | ⟨rest, shape, same⟩
  · rw [same, whole] at halved
    exact Or.inl halved.symm
  · rw [shape] at whole
    rw [same] at halved
    simp only [length_cons] at whole
    omega
  rw [shape] at whole
  rw [same] at halved
  simp only [length_cons] at whole
  omega
end Infernode.Ethcrypto
