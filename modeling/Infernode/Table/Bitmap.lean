import Mathlib.Data.List.Basic
import Mathlib.Tactic.Common

/-!
Contract: sets of numbers in words of at least 32 bits, 32 numbers to a word.

A number's mask is computed in 32 bits and extended with its sign, so in a wider word the mask
of the last number of a word has all the high bits.

Owns: setting, clearing and testing a number of a word, the words in which the high bits say
nothing of their own, and the set that a list of words stands for.
-/

namespace Infernode.Bitmap

open List

variable {x : Nat}

abbrev Word (x : Nat) := BitVec (32 + x)

/-- `1 << j` as a signed word of 32 bits, widened. -/
def mask (x j : Nat) : Word x := ((1#32) <<< j).signExtend (32 + x)

/-- The high bits are clear when the last number is not in the word. -/
def Tidy (v : Word x) : Prop := ∀ k, 32 ≤ k → v.getLsbD k = true → v.getLsbD 31 = true

def has (words : List (Word x)) (t : Nat) : Bool := (words.getD (t / 32) 0).getLsbD (t % 32)

def put (words : List (Word x)) (t : Nat) : List (Word x) :=
  words.modify (t / 32) fun v => v ||| mask x (t % 32)

def remove (words : List (Word x)) (t : Nat) : List (Word x) :=
  words.modify (t / 32) fun v => v &&& ~~~ mask x (t % 32)

/-! ### One word -/

variable {j k : Nat}

theorem getLsbD_mask (low : j < 32) :
    (mask x j).getLsbD k = decide (k < 32 + x ∧ (k = j ∨ j = 31 ∧ 32 ≤ k)) := by
  have bit (i : Nat) : ((1#32) <<< j).getLsbD i = decide (i < 32 ∧ i = j) := by
    rw [BitVec.getLsbD_shiftLeft, BitVec.getLsbD_one]
    by_cases same : i = j
    · subst same
      simp [low]
    have other : ¬ (i - j = 0 ∧ j ≤ i) := by omega
    by_cases below : i < j
    · simp [below, same]
    · have differs : i - j ≠ 0 := by omega
      simp [differs, same]
  unfold mask
  rw [BitVec.getLsbD_signExtend, BitVec.msb_eq_getLsbD_last, bit, bit]
  rw [Bool.eq_iff_iff, Bool.and_eq_true, decide_eq_true_iff, decide_eq_true_iff]
  split
  · rw [decide_eq_true_iff]
    omega
  · rw [decide_eq_true_iff]
    omega

theorem getLsbD_mask_low (low : j < 32) (below : k < 32) :
    (mask x j).getLsbD k = decide (k = j) := by
  rw [getLsbD_mask low, decide_eq_decide]
  omega

theorem getLsbD_or_mask (v : Word x) (low : j < 32) (below : k < 32) :
    (v ||| mask x j).getLsbD k = (v.getLsbD k || decide (k = j)) := by
  rw [BitVec.getLsbD_or, getLsbD_mask_low low below]

theorem getLsbD_and_not_mask (v : Word x) (low : j < 32) (below : k < 32) :
    (v &&& ~~~ mask x j).getLsbD k = (v.getLsbD k && !decide (k = j)) := by
  have inside : k < 32 + x := by omega
  rw [BitVec.getLsbD_and, BitVec.getLsbD_not, getLsbD_mask_low low below, decide_eq_true inside,
    Bool.true_and]

theorem tidy_zero : Tidy (0 : Word x) := by
  intro _ _ set
  rw [show (0 : Word x) = 0#(32 + x) from rfl, BitVec.getLsbD_zero] at set
  exact absurd set Bool.noConfusion

variable {v : Word x}

theorem tidy_or_mask (low : j < 32) (tidy : Tidy v) : Tidy (v ||| mask x j) := by
  intro k high set
  rw [getLsbD_or_mask v low (by omega), Bool.or_eq_true, decide_eq_true_iff]
  rw [BitVec.getLsbD_or, Bool.or_eq_true, getLsbD_mask low, decide_eq_true_iff] at set
  rcases set with old | ⟨-, here | ⟨last, -⟩⟩
  · exact .inl (tidy k high old)
  · omega
  · exact .inr last.symm

theorem tidy_and_not_mask (low : j < 32) (tidy : Tidy v) : Tidy (v &&& ~~~ mask x j) := by
  intro k high set
  have inside : k < 32 + x := by
    rcases Nat.lt_or_ge k (32 + x) with inside | outside
    · exact inside
    · rw [BitVec.getLsbD_of_ge _ _ outside] at set
      exact absurd set Bool.noConfusion
  rw [BitVec.getLsbD_and, BitVec.getLsbD_not, getLsbD_mask low, decide_eq_true inside,
    Bool.true_and, Bool.and_eq_true, Bool.not_eq_true', decide_eq_false_iff_not] at set
  rw [getLsbD_and_not_mask v low (by omega), Bool.and_eq_true, Bool.not_eq_true',
    decide_eq_false_iff_not]
  exact ⟨tidy k high set.1, fun last => set.2 ⟨inside, .inr ⟨last.symm, high⟩⟩⟩

theorem and_mask_eq_zero (low : j < 32) (tidy : Tidy v) :
    v &&& mask x j = 0 ↔ v.getLsbD j = false := by
  constructor
  · intro zero
    have bit : (v &&& mask x j).getLsbD j = false := by
      rw [zero]
      exact BitVec.getLsbD_zero
    rw [BitVec.getLsbD_and, getLsbD_mask_low low low, decide_eq_true rfl, Bool.and_true] at bit
    exact bit
  intro clear
  apply BitVec.eq_of_getLsbD_eq
  intro k _
  rw [BitVec.getLsbD_and, getLsbD_mask low]
  refine Eq.trans ?_ BitVec.getLsbD_zero.symm
  rw [Bool.and_eq_false_iff, decide_eq_false_iff_not]
  by_cases set : v.getLsbD k = true
  · right
    rintro ⟨-, here | ⟨last, high⟩⟩
    · rw [here, clear] at set
      exact Bool.noConfusion set
    · have top := tidy k high set
      rw [← last, clear] at top
      exact Bool.noConfusion top
  · exact .inl (Bool.not_eq_true _ |>.mp set)

/-! ### Many words -/

theorem getD_modify (words : List (Word x)) (f : Word x → Word x) (i j : Nat) :
    (words.modify i f).getD j 0 =
      if i = j ∧ i < words.length then f (words.getD j 0) else words.getD j 0 := by
  rw [getD_eq_getElem?_getD, getD_eq_getElem?_getD, getElem?_modify]
  by_cases same : i = j
  · subst same
    rcases Nat.lt_or_ge i words.length with inside | outside
    · rw [getElem?_eq_getElem inside]
      simp [inside]
    · rw [getElem?_eq_none outside]
      simp [Nat.not_lt.2 outside]
  · rw [if_neg fun both => same both.1]
    simp only [if_neg same]
    cases words[j]? <;> rfl

variable {words : List (Word x)}

/-- A number put in is in the set, and no other number changes. -/
theorem has_put {t : Nat} (inside : t / 32 < words.length) (u : Nat) :
    has (put words t) u = (has words u || decide (u = t)) := by
  have low : t % 32 < 32 := Nat.mod_lt _ (by decide)
  have low' : u % 32 < 32 := Nat.mod_lt _ (by decide)
  unfold has put
  rw [getD_modify]
  by_cases same : t / 32 = u / 32
  · rw [if_pos ⟨same, inside⟩, getLsbD_or_mask _ low low']
    congr 1
    rw [decide_eq_decide]
    omega
  · rw [if_neg fun both => same both.1]
    have other : u ≠ t := by omega
    rw [decide_eq_false other, Bool.or_false]

theorem has_remove {t : Nat} (inside : t / 32 < words.length) (u : Nat) :
    has (remove words t) u = (has words u && !decide (u = t)) := by
  have low : t % 32 < 32 := Nat.mod_lt _ (by decide)
  have low' : u % 32 < 32 := Nat.mod_lt _ (by decide)
  unfold has remove
  rw [getD_modify]
  by_cases same : t / 32 = u / 32
  · rw [if_pos ⟨same, inside⟩, getLsbD_and_not_mask _ low low']
    congr 2
    rw [decide_eq_decide]
    omega
  · rw [if_neg fun both => same both.1]
    have other : u ≠ t := by omega
    rw [decide_eq_false other, Bool.not_false, Bool.and_true]

theorem length_put (words : List (Word x)) (t : Nat) :
    (put words t).length = words.length := length_modify ..

theorem length_remove (words : List (Word x)) (t : Nat) :
    (remove words t).length = words.length := length_modify ..

theorem tidy_modify {f : Word x → Word x} (i : Nat) (tidy : ∀ v ∈ words, Tidy v)
    (kept : ∀ v, Tidy v → Tidy (f v)) : ∀ v ∈ words.modify i f, Tidy v := by
  intro _ member
  have ⟨_, is⟩ := mem_iff_getElem?.1 member
  rw [getElem?_modify] at is
  have ⟨w, there, same⟩ := Option.map_eq_some_iff.1 is
  have old := tidy w (mem_of_getElem? there)
  rw [← same]
  split
  · exact kept w old
  · exact old

theorem tidy_put (t : Nat) (tidy : ∀ v ∈ words, Tidy v) : ∀ v ∈ put words t, Tidy v :=
  tidy_modify _ tidy fun _ => tidy_or_mask (Nat.mod_lt _ (by decide))

theorem tidy_remove (t : Nat) (tidy : ∀ v ∈ words, Tidy v) : ∀ v ∈ remove words t, Tidy v :=
  tidy_modify _ tidy fun _ => tidy_and_not_mask (Nat.mod_lt _ (by decide))

end Infernode.Bitmap
