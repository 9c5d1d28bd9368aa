import Infernode.Limbo.Labels
import Mathlib.Data.List.Lex

/-!
The order of strings.

Owns: what it is for a number to compare two texts, that the comparison of bytes does, and that the
bytes of two strings are in the order of the strings.
-/

namespace Infernode.Limbo

open Lib9 Text List

/-! ### Comparisons -/

/-- The number is below zero where the first text is before the second, and above where it is
behind it. -/
structure Signs (x : Int) (a b : Str) : Prop where
  below : x < 0 ↔ a < b
  above : 0 < x ↔ b < a

section Signs

variable {x : Int} {a b : Str} {c d : Nat}

theorem Signs.zero (signs : Signs x a b) : x = 0 ↔ a = b := by
  have below := signs.below
  have above := signs.above
  constructor
  · rintro rfl
    apply le_antisymm
    · exact not_lt.1 fun behind => absurd (above.2 behind) (by decide)
    · exact not_lt.1 fun before => absurd (below.2 before) (by decide)
  rintro rfl
  have notBelow : ¬ x < 0 := fun negative => lt_irrefl a (below.1 negative)
  have notAbove : ¬ 0 < x := fun positive => lt_irrefl a (above.1 positive)
  omega

theorem Signs.cons (signs : Signs x a b) (c : Nat) : Signs x (c :: a) (c :: b) where
  below := by
    rw [cons_lt_cons_iff, signs.below]
    simp
  above := by
    rw [cons_lt_cons_iff, signs.above]
    simp

theorem Signs.head (differ : c ≠ d) (below : x < 0 ↔ c < d) (above : 0 < x ↔ d < c) :
    Signs x (c :: a) (d :: b) where
  below := by
    rw [cons_lt_cons_iff, below]
    simp [differ]
  above := by
    rw [cons_lt_cons_iff, above]
    simp [differ.symm]

/-- The shorter of two texts, one of which begins the other, is before the longer. -/
theorem Signs.nil_left (b : Str) : Signs (-b.length) [] b where
  below := by
    cases b with
    | nil => simp
    | cons _ _ => simp; omega
  above := by
    have notBelow : ¬ b < [] := by simp
    constructor
    · omega
    · exact fun behind => absurd behind notBelow

theorem Signs.neg (signs : Signs x a b) : Signs (-x) b a where
  below := by
    rw [← signs.above]
    omega
  above := by
    rw [← signs.below]
    omega

theorem Signs.nil_right (a : Str) : Signs a.length a [] := by
  have signs := (Signs.nil_left a).neg
  rw [Int.neg_neg] at signs
  exact signs

end Signs

theorem signs_symcmp : ∀ a b : Str, Signs (symcmp a b) a b
  | [], b => by
    have signs := Signs.nil_left b
    unfold symcmp memcmp
    simpa using signs
  | c :: a, [] => by
    have signs := Signs.nil_right (c :: a)
    unfold symcmp memcmp
    simpa using signs
  | c :: a, d :: b => by
    by_cases same : c = d
    · have step : symcmp (c :: a) (d :: b) = symcmp a b := by
        unfold symcmp
        rw [memcmp, if_pos same, length_cons, length_cons]
        simp
      rw [step, same]
      exact (signs_symcmp a b).cons d
    have step : symcmp (c :: a) (d :: b) = (c : Int) - d := by
      unfold symcmp
      rw [memcmp, if_neg same]
      exact if_neg (by omega)
    rw [step]
    apply Signs.head same
    · omega
    · omega

theorem memcmp_take (a b : Str) : ∀ n, min a.length b.length ≤ n →
    memcmp (a.take n) (b.take n) = memcmp a b := by
  induction a generalizing b with
  | nil =>
    intro n _
    rw [take_nil]
    cases b.take n with
    | nil => cases b with
      | nil => rfl
      | cons _ _ => rfl
    | cons d _ => cases b with
      | nil => rfl
      | cons _ _ => rfl
  | cons _ _ ih =>
    intro n enough
    cases b with
    | nil =>
      rw [take_nil]
      cases n with
      | zero => rfl
      | succ _ => rfl
    | cons _ b =>
      cases n with
      | zero =>
        simp at enough
      | succ n =>
        simp only [length_cons] at enough
        rw [take_succ_cons, take_succ_cons, memcmp, memcmp,
          ih b n (by omega)]

/-! ### The bytes of strings -/

/-- The bytes of a rune are before those of a greater one. -/
theorem runetochar_lt {c d : Nat} (less : c < d) (a b : Str) :
    runetochar c ++ a < runetochar d ++ b := by
  unfold runetochar
  by_cases oneC : c ≤ 0x7F
  · rw [if_pos oneC]
    by_cases oneD : d ≤ 0x7F
    · rw [if_pos oneD]
      exact cons_lt_cons_iff.2 (Or.inl less)
    rw [if_neg oneD]
    by_cases twoD : d ≤ 0x7FF
    · rw [if_pos twoD]
      exact cons_lt_cons_iff.2 (Or.inl (by omega))
    · rw [if_neg twoD]
      exact cons_lt_cons_iff.2 (Or.inl (by omega))
  · rw [if_neg oneC, if_neg (by omega : ¬ d ≤ 0x7F)]
    by_cases twoC : c ≤ 0x7FF
    · rw [if_pos twoC]
      by_cases twoD : d ≤ 0x7FF
      · rw [if_pos twoD]
        simp only [cons_append, nil_append, cons_lt_cons_iff]
        omega
      · rw [if_neg twoD]
        exact cons_lt_cons_iff.2 (Or.inl (by omega))
    · rw [if_neg twoC, if_neg (by omega : ¬ d ≤ 0x7FF)]
      simp only [cons_append, nil_append, cons_lt_cons_iff]
      omega

theorem cvtca_lt {a b : Str} (before : a < b) : cvtca a < cvtca b := by
  induction a generalizing b with
  | nil =>
    cases b with
    | nil => exact absurd before (lt_irrefl _)
    | cons _ _ =>
      rw [cvtca_cons]
      unfold runetochar
      split_ifs
      · exact nil_lt_cons _ _
      · exact nil_lt_cons _ _
      · exact nil_lt_cons _ _
  | cons _ _ ih =>
    cases b with
    | nil => exact absurd before (by simp)
    | cons _ _ =>
      rw [cvtca_cons, cvtca_cons]
      rcases cons_lt_cons_iff.1 before with less | ⟨rfl, later⟩
      · exact runetochar_lt less _ _
      · exact append_left_lt (ih later)

theorem cvtca_lt_iff {a b : Str} : cvtca a < cvtca b ↔ a < b := by
  constructor
  · intro before
    rcases lt_trichotomy a b with less | rfl | greater
    · exact less
    · exact absurd before (lt_irrefl _)
    · exact absurd before (cvtca_lt greater).asymm
  · exact cvtca_lt

/-! ### The types of a case -/

theorem valcmp_below (a b : Int) : valcmp a b < 0 ↔ a < b := by
  unfold valcmp
  split_ifs
  · omega
  · omega
  · omega

theorem valcmp_above (a b : Int) : 0 < valcmp a b ↔ b < a := by
  unfold valcmp
  split_ifs
  · omega
  · omega
  · omega

theorem lawful_tint : tint.Lawful where
  below := valcmp_below
  above := valcmp_above
  follows := by
    intro start p follows _
    have same : start = p + 1 := beq_iff_eq.1 follows
    omega

theorem lawful_tbig : tbig.Lawful where
  below := valcmp_below
  above := valcmp_above
  follows := nofun

theorem lawful_tstring : tstring.Lawful where
  below := fun a b => (signs_symcmp (cvtca a) (cvtca b)).below.trans cvtca_lt_iff
  above := fun a b => (signs_symcmp (cvtca a) (cvtca b)).above.trans cvtca_lt_iff
  follows := nofun

end Infernode.Limbo
