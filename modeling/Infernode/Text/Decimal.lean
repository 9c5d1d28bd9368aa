import Mathlib.Data.List.Basic
import Mathlib.Tactic.Common
import Mathlib.Tactic.Ring

/-!
Contract: texts as lists of character codes, and the decimal notation of
integers.

Owns: `Str`, `str`; printing an integer (`decimal`) and reading one
(`strtol`), which skips leading white space, takes one sign and stops at the
first character that is no digit; the round trip between them; and a signed
32-bit word with the saturating read of such a word.
-/

namespace Infernode.Text

open List

/-- A text is a sequence of character codes. -/
abbrev Str := List Nat

instance : LawfulBEq Str := inferInstanceAs (LawfulBEq (List Nat))

def str (literal : String) : Str := literal.toList.map Char.toNat

def isDigit (c : Nat) : Bool := decide (48 ≤ c) && decide (c ≤ 57)

/-- The white space that a numeric conversion skips. -/
def isSpace (c : Nat) : Bool := c == 32 || (decide (9 ≤ c) && decide (c ≤ 13))

def natOfDigits (digits : Str) : Nat := digits.foldl (fun value c => 10 * value + (c - 48)) 0

/-- The decimal digits of a natural number, most significant first. -/
def natDigits (n : Nat) : Str := (Nat.toDigits 10 n).map Char.toNat

def decimal : Int → Str
  | .ofNat n => natDigits n
  | .negSucc n => 45 :: natDigits (n + 1)

/-- Split an optional sign off a text; `true` is a minus. -/
def takeSign : Str → Bool × Str
  | 45 :: rest => (true, rest)
  | 43 :: rest => (false, rest)
  | text => (false, text)

/-- Read a decimal integer from the front of a text. -/
def strtol (text : Str) : Int :=
  let signed := takeSign (text.dropWhile isSpace)
  let value : Int := natOfDigits (signed.2.takeWhile isDigit)
  if signed.1 then -value else value

@[simp] theorem natOfDigits_natDigits (n : Nat) : natOfDigits (natDigits n) = n := by
  have read : Nat.ofDigitChars 10 (Nat.toDigits 10 n) 0 = n := Nat.ofDigitChars_ten_toDigits
  unfold Nat.ofDigitChars at read
  unfold natOfDigits natDigits
  rw [foldl_map]
  exact read

variable {c : Nat} {n : Int}

theorem isDigit_of_mem_natDigits {n : Nat} (member : c ∈ natDigits n) : isDigit c = true := by
  obtain ⟨_, inDigits, rfl⟩ := mem_map.1 member
  have decimalDigit := Nat.isDigit_of_mem_toDigits (by decide) (by decide) inDigits
  simp only [Char.isDigit, Bool.and_eq_true, decide_eq_true_eq] at decimalDigit
  simp only [isDigit, Bool.and_eq_true, decide_eq_true_eq]
  exact ⟨decimalDigit.1, decimalDigit.2⟩

theorem natDigits_ne_nil (n : Nat) : natDigits n ≠ [] := by
  simp [natDigits, Nat.toDigits_ne_nil]

/-- A decimal text is made of digits and at most a minus sign. -/
theorem mem_decimal (member : c ∈ decimal n) : isDigit c = true ∨ c = 45 := by
  cases n with
  | ofNat _ => exact Or.inl (isDigit_of_mem_natDigits member)
  | negSucc _ =>
    rcases mem_cons.1 member with rfl | member
    · exact Or.inr rfl
    · exact Or.inl (isDigit_of_mem_natDigits member)

theorem decimal_ne_nil (n : Int) : decimal n ≠ [] := by
  cases n with
  | ofNat n => exact natDigits_ne_nil n
  | negSucc _ => exact cons_ne_nil _ _

theorem length_natDigits_le {n k : Nat} (positive : 0 < k) (small : n < 10 ^ k) :
    (natDigits n).length ≤ k := by
  rw [natDigits, length_map]
  exact (Nat.length_toDigits_le_iff (by decide) positive).2 small

/-- As many digits as the integer needs, and the sign. -/
theorem length_decimal_le {k : Nat} (positive : 0 < k) (small : n.natAbs < 10 ^ k) :
    (decimal n).length ≤ k + 1 := by
  cases n with
  | ofNat _ => exact Nat.le_succ_of_le (length_natDigits_le positive small)
  | negSucc _ => exact Nat.succ_le_succ (length_natDigits_le positive small)

theorem isDigit_bounds (digit : isDigit c = true) : 48 ≤ c ∧ c ≤ 57 := by
  simpa [isDigit] using digit

theorem takeSign_digit {rest : Str} (digit : isDigit c = true) :
    takeSign (c :: rest) = (false, c :: rest) := by
  have bounds := isDigit_bounds digit
  unfold takeSign
  split
  · simp_all
  · simp_all
  · rfl

theorem not_isSpace_of_isDigit (digit : isDigit c = true) : isSpace c = false := by
  have bounds := isDigit_bounds digit
  simp only [isSpace, Bool.or_eq_false_iff, beq_eq_false_iff_ne, Bool.and_eq_false_iff,
    decide_eq_false_iff_not]
  omega

/-- The number is read back from the front of any text that goes on with a
character that is no digit. -/
theorem strtol_decimal_append (n : Int) (rest : Str)
    (stops : ∀ c ∈ rest.head?, isDigit c = false) : strtol (decimal n ++ rest) = n := by
  have digitsRead : ∀ m : Nat, (natDigits m ++ rest).takeWhile isDigit = natDigits m := by
    intro m
    rw [takeWhile_append_of_pos (fun c member => isDigit_of_mem_natDigits member)]
    cases rest with
    | nil => simp
    | cons head _ => simp [stops head rfl]
  unfold strtol
  cases n with
  | ofNat m =>
    have ⟨first, _, digits⟩ := exists_cons_of_ne_nil (natDigits_ne_nil m)
    have firstMember : first ∈ natDigits m := digits ▸ mem_cons_self ..
    have firstDigit : isDigit first = true := isDigit_of_mem_natDigits firstMember
    have skip : (decimal (Int.ofNat m) ++ rest).dropWhile isSpace = natDigits m ++ rest := by
      simp [decimal, digits, not_isSpace_of_isDigit firstDigit]
    have unsigned : takeSign (natDigits m ++ rest) = (false, natDigits m ++ rest) := by
      rw [digits, cons_append, takeSign_digit firstDigit]
    rw [skip, unsigned]
    simp [digitsRead m]
  | negSucc m =>
    have skip : (decimal (Int.negSucc m) ++ rest).dropWhile isSpace =
        45 :: (natDigits (m + 1) ++ rest) := by
      simp [decimal, isSpace]
    rw [skip]
    simp only [takeSign, digitsRead (m + 1), natOfDigits_natDigits, if_true]
    rfl

@[simp] theorem strtol_decimal (n : Int) : strtol (decimal n) = n := by
  simpa using strtol_decimal_append n [] (by simp)

theorem decimal_injective : Function.Injective decimal := by
  intro left _ same
  rw [← strtol_decimal left, same, strtol_decimal]

/-! ### Signed 32-bit words -/

def InWord (n : Int) : Prop := -2147483648 ≤ n ∧ n ≤ 2147483647

instance (n : Int) : Decidable (InWord n) := by
  unfold InWord
  infer_instance

/-- Bring an integer into the word by clamping it at the ends. -/
def clamp (n : Int) : Int := max (-2147483648) (min n 2147483647)

/-- Bring an integer into the word modulo `2 ^ 32`. -/
def wrap (n : Int) : Int := Int.bmod n 4294967296

theorem clamp_of_inWord (inWord : InWord n) : clamp n = n := by
  unfold InWord at inWord
  unfold clamp
  omega

theorem wrap_of_inWord (inWord : InWord n) : wrap n = n := by
  unfold InWord at inWord
  unfold wrap
  apply Int.bmod_eq_of_le <;> omega

theorem inWord_wrap (n : Int) : InWord (wrap n) := by
  have lower := Int.le_bmod (x := n) (m := 4294967296) (by decide)
  have upper := Int.bmod_lt (x := n) (m := 4294967296) (by decide)
  unfold InWord wrap
  omega

/-- Read a word: the value clamps at the ends of the word. -/
def strtoint (text : Str) : Int := clamp (strtol text)

theorem strtoint_decimal (inWord : InWord n) : strtoint (decimal n) = n := by
  rw [strtoint, strtol_decimal, clamp_of_inWord inWord]

end Infernode.Text
