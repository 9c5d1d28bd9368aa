import Infernode.Text.Tokens
import Infernode.Text.Decimal

/-!
The string functions of `appl/lib/string.b` that the network modules use. A
character class is a predicate.

Owns: `tolower`, `prefix`, `splitl` and `splitr`, and where they cut; `toint` in base ten.
-/

namespace Infernode.Strings

open Text List

def tolower (s : Str) : Str := s.map fun c => if 65 ≤ c ∧ c ≤ 90 then c + 32 else c

def hasprefix (s p : Str) : Bool := p.isPrefixOf s

/-- The text before the first character of the class, and the text from it on. -/
def splitl (s : Str) (cl : Nat → Bool) : Str × Str :=
  (s.takeWhile fun c => !cl c, s.dropWhile fun c => !cl c)

/-- The text up to and with the last character of the class, and the text after it. -/
def splitr (s : Str) (cl : Nat → Bool) : Str × Str :=
  ((s.reverse.dropWhile fun c => !cl c).reverse, (s.reverse.takeWhile fun c => !cl c).reverse)

/-- The number at the front of a text, in base ten and as an `int`, and the text after it. -/
def toint (s : Str) : Int × Str :=
  let (neg, digits) := takeSign (s.dropWhile fun c => c == 32 || c == 9 || c == 10)
  let number := digits.takeWhile isDigit
  if number = [] then (0, s)
  else
    let n : Int := natOfDigits number
    (wrap (if neg then -n else n), digits.drop number.length)

@[simp] theorem tolower_nil : tolower [] = [] := rfl

@[simp] theorem tolower_append (left right : Str) :
    tolower (left ++ right) = tolower left ++ tolower right := by
  simp [tolower]

@[simp] theorem tolower_cons (c : Nat) (rest : Str) :
    tolower (c :: rest) = (if 65 ≤ c ∧ c ≤ 90 then c + 32 else c) :: tolower rest := rfl

variable {s : Str} {c : Nat}

@[simp] theorem tolower_eq_nil : tolower s = [] ↔ s = [] := by
  simp [tolower]

theorem tolower_tolower (s : Str) : tolower (tolower s) = tolower s := by
  unfold tolower
  rw [map_map]
  refine map_congr_left fun c _ => ?_
  simp only [Function.comp_apply]
  split_ifs <;> omega

theorem splitr_append {left right : Str} (absent : c ∉ right) :
    splitr (left ++ c :: right) (· == c) = (left ++ [c], right) := by
  have kept : ∀ d ∈ right.reverse, (!(d == c)) = true := by
    intro d member
    have other : d ≠ c := fun same => absent (same ▸ mem_reverse.1 member)
    simpa using other
  have reversed : (left ++ c :: right).reverse = right.reverse ++ c :: left.reverse := by simp
  unfold splitr
  rw [reversed, takeWhile_append_stop kept (by simp), dropWhile_append_of_pos kept,
    dropWhile_cons_of_neg (by simp)]
  simp

theorem dropWhile_dropWhile {p q : Nat → Bool} (skips : ∀ c, p c = true → q c = true) :
    ∀ s : Str, (s.dropWhile p).dropWhile q = s.dropWhile q
  | [] => rfl
  | c :: rest => by
    cases is : p c with
    | true =>
      rw [List.dropWhile_cons_of_pos is, List.dropWhile_cons_of_pos (skips c is)]
      exact dropWhile_dropWhile skips rest
    | false => rw [List.dropWhile_cons_of_neg (by simp [is])]

/-- A text that has a number at its front has no white space there. -/
theorem dropWhile_of_digits (digits : (takeSign s).2.takeWhile isDigit ≠ []) :
    s.dropWhile isSpace = s := by
  cases s with
  | nil => rfl
  | cons c rest =>
    apply dropWhile_cons_of_neg
    rw [Bool.not_eq_true]
    unfold takeSign at digits
    split at digits
    · rename_i is
      cases is
      rfl
    · rename_i is
      cases is
      rfl
    cases digit : isDigit c with
    | true => exact not_isSpace_of_isDigit digit
    | false =>
      rw [takeWhile_cons_of_neg (by simp [digit])] at digits
      exact absurd rfl digits

/-- The number that is read is the number that is written, in a word of 32 bits. -/
theorem toint_wrap (read : (toint s).1 ≠ 0) : (toint s).1 = wrap (strtol s) := by
  unfold toint at read
  unfold toint strtol
  simp only at read
  simp only
  split at read
  · exact absurd rfl read
  rename_i digits
  rw [if_neg digits]
  rw [← dropWhile_dropWhile (p := fun c => c == 32 || c == 9 || c == 10) (q := isSpace) ?_ s,
    dropWhile_of_digits digits]
  intro c white
  simp only [Bool.or_eq_true, beq_iff_eq] at white
  rcases white with (rfl | rfl) | rfl
  · rfl
  · rfl
  · rfl

theorem toint_natDigits {m : Nat} (inWord : InWord m) : (toint (natDigits m)).1 = m := by
  have ⟨first, _, digits⟩ := exists_cons_of_ne_nil (natDigits_ne_nil m)
  have firstDigit : isDigit first = true :=
    isDigit_of_mem_natDigits (digits ▸ mem_cons_self ..)
  have bounds := isDigit_bounds firstDigit
  have skip : (natDigits m).dropWhile (fun c => c == 32 || c == 9 || c == 10) = natDigits m := by
    rw [digits, dropWhile_cons_of_neg]
    simp only [Bool.or_eq_true, beq_iff_eq]
    omega
  have unsigned : takeSign (natDigits m) = (false, natDigits m) := by
    rw [digits, takeSign_digit firstDigit]
  have whole : (natDigits m).takeWhile isDigit = natDigits m :=
    takeWhile_eq_self_iff.2 fun c member => isDigit_of_mem_natDigits member
  unfold toint
  rw [skip, unsigned]
  dsimp only
  rw [whole, if_neg (natDigits_ne_nil m), natOfDigits_natDigits]
  dsimp only
  rw [if_neg Bool.false_ne_true]
  exact wrap_of_inWord inWord

theorem toint_decimal {n : Int} (positive : 0 ≤ n) (inWord : InWord n) :
    (toint (decimal n)).1 = n := by
  cases n with
  | ofNat _ => exact toint_natDigits inWord
  | negSucc m => exact absurd positive (Int.not_le.2 (Int.negSucc_lt_zero m))

end Infernode.Strings
