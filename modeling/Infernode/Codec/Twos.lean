import Mathlib.Data.Int.Bitwise
import Mathlib.Tactic.Common
import Mathlib.Tactic.Ring

/-!
Contract: integers in two's complement.

Owns: `Fits`, the integers that a number of bits can hold; and the operations on the bits of
an integer as the operations on the integer, for those that wrap and for those that do not.

Does not own: any machine, or what it does where an operation has no result.
-/

namespace Infernode.Twos

open BitVec

variable {w : Nat}

/-- The integers that `w` bits can hold. -/
def Fits (w : Nat) (t : Int) : Prop := -2 ^ (w - 1) ≤ t ∧ t < 2 ^ (w - 1)

instance (w : Nat) (t : Int) : Decidable (Fits w t) := inferInstanceAs (Decidable (_ ∧ _))

theorem fits_toInt (x : BitVec w) : Fits w x.toInt := ⟨le_toInt x, toInt_lt⟩

variable {t u : Int}

theorem toInt_ofInt (positive : 0 < w) (fits : Fits w t) : (BitVec.ofInt w t).toInt = t :=
  toInt_ofInt_eq_self positive fits.1 fits.2

variable {x : BitVec w}

theorem toNat_of_nonneg (nonneg : 0 ≤ x.toInt) : (x.toNat : Int) = x.toInt := by
  have below := x.isLt
  rw [toInt_eq_toNat_cond] at nonneg ⊢
  split at nonneg
  · rw [if_pos (by assumption)]
  · omega

theorem toInt_neg (positive : 0 < w) (above : -2 ^ (w - 1) < x.toInt) : (-x).toInt = -x.toInt := by
  apply toInt_neg_of_ne_intMin
  rintro rfl
  rw [toInt_intMin_of_pos positive] at above
  exact absurd above (Int.lt_irrefl _)

theorem ofInt_toNat (x : BitVec w) : BitVec.ofInt w x.toNat = x := by
  rw [ofInt_natCast, ofNat_toNat, setWidth_eq]

/-- Two integers have the same bits when they differ by a multiple of the modulus. -/
theorem ofInt_inj : BitVec.ofInt w t = BitVec.ofInt w u ↔ t % 2 ^ w = u % 2 ^ w := by
  rw [← toNat_inj, toNat_ofInt, toNat_ofInt]
  have positive : (0 : Int) < 2 ^ w := Int.pow_pos (by decide)
  have left := Int.emod_nonneg t (Int.ne_of_gt positive)
  have right := Int.emod_nonneg u (Int.ne_of_gt positive)
  push_cast
  omega

theorem setWidth_ofInt {v : Nat} (narrower : v ≤ w) (t : Int) :
    (BitVec.ofInt w t).setWidth v = BitVec.ofInt v t := by
  rw [← toNat_inj, toNat_setWidth, toNat_ofInt, toNat_ofInt]
  have divides : ((2 ^ v : Nat) : Int) ∣ ((2 ^ w : Nat) : Int) :=
    Int.natCast_dvd_natCast.2 (Nat.pow_dvd_pow 2 narrower)
  have whole := Int.emod_emod_of_dvd t divides
  have positive : (0 : Int) < ((2 ^ w : Nat) : Int) :=
    Int.natCast_pos.2 (Nat.two_pow_pos w)
  have left := Int.emod_nonneg t (Int.ne_of_gt positive)
  rw [← whole, Int.toNat_emod left (Int.natCast_nonneg _), Int.toNat_natCast]

theorem ofInt_sub (t u : Int) :
    BitVec.ofInt w (t - u) = BitVec.ofInt w t - BitVec.ofInt w u := by
  rw [Int.sub_eq_add_neg, ofInt_add, ofInt_neg, BitVec.sub_eq_add_neg]

theorem ofInt_shiftLeft (t : Int) (n : Nat) :
    BitVec.ofInt w t <<< n = BitVec.ofInt w (t * 2 ^ n) := by
  rw [shiftLeft_eq_mul_twoPow, ofInt_mul]
  congr 1
  rw [← toNat_inj, toNat_twoPow]
  exact (toNat_ofNat (2 ^ n) w).symm

/-- A shift to the right divides, rounding down. -/
theorem ofInt_sshiftRight (positive : 0 < w) (fits : Fits w t) (n : Nat) :
    (BitVec.ofInt w t).sshiftRight n = BitVec.ofInt w (t / 2 ^ n) := by
  rw [← ofInt_toInt (x := (BitVec.ofInt w t).sshiftRight n), toInt_sshiftRight,
    toInt_ofInt positive fits, Int.shiftRight_eq_div_pow]
  norm_cast

/-- A shift to the right of a number without a sign. -/
theorem ofInt_ushiftRight (x : BitVec w) (n : Nat) :
    x >>> n = BitVec.ofInt w ((x.toNat : Int) / 2 ^ n) := by
  have whole : (x.toNat : Int) / 2 ^ n = ((x >>> n).toNat : Int) := by
    rw [toNat_ushiftRight, Nat.shiftRight_eq_div_pow]
    norm_cast
  rw [whole, ofInt_toNat]

theorem ofInt_sdiv (positive : 0 < w) (fitsT : Fits w t) (fitsU : Fits w u) :
    (BitVec.ofInt w t).sdiv (BitVec.ofInt w u) = BitVec.ofInt w (t.tdiv u) := by
  rw [← toInt_inj, toInt_sdiv, toInt_ofInt positive fitsT,
    toInt_ofInt positive fitsU, BitVec.toInt_ofInt]

theorem ofInt_srem (positive : 0 < w) (fitsT : Fits w t) (fitsU : Fits w u) :
    (BitVec.ofInt w t).srem (BitVec.ofInt w u) = BitVec.ofInt w (t.tmod u) := by
  rw [← ofInt_toInt (x := (BitVec.ofInt w t).srem (BitVec.ofInt w u)), toInt_srem,
    toInt_ofInt positive fitsT, toInt_ofInt positive fitsU]

theorem ofInt_udiv (x y : BitVec w) :
    BitVec.ofInt w ((x.toNat : Int).tdiv y.toNat) = x.udiv y := by
  rw [← Int.ofNat_tdiv, ← toNat_udiv, ofInt_toNat, udiv_eq]

theorem ofInt_umod (x y : BitVec w) :
    BitVec.ofInt w ((x.toNat : Int).tmod y.toNat) = x.umod y := by
  rw [← Int.ofNat_tmod, ← toNat_umod, ofInt_toNat, umod_eq]

/-! ### Bits -/

theorem getLsbD_ofInt (t : Int) (i : Nat) :
    (BitVec.ofInt w t).getLsbD i = (decide (i < w) && t.testBit i) := by
  cases t with
  | ofNat n =>
    show (BitVec.ofNat w n).getLsbD i = (decide (i < w) && n.testBit i)
    rw [getLsbD_ofNat]
  | negSucc n =>
    rw [ofInt_negSucc_eq_not_ofNat, getLsbD_not, getLsbD_ofNat]
    show _ = (decide (i < w) && !n.testBit i)
    cases decide (i < w) <;> rfl

theorem testBit_toInt (x : BitVec w) {i : Nat} (inside : i < w) :
    x.toInt.testBit i = x.getLsbD i := by
  have bits := getLsbD_ofInt (w := w) x.toInt i
  rw [ofInt_toInt, decide_eq_true inside, Bool.true_and] at bits
  exact bits.symm

theorem ofInt_land (x y : BitVec w) : BitVec.ofInt w (x.toInt.land y.toInt) = x &&& y := by
  apply eq_of_getLsbD_eq
  intro i inside
  rw [getLsbD_ofInt, Int.testBit_land, testBit_toInt x inside, testBit_toInt y inside,
    getLsbD_and, decide_eq_true inside, Bool.true_and]

theorem ofInt_lor (x y : BitVec w) : BitVec.ofInt w (x.toInt.lor y.toInt) = x ||| y := by
  apply eq_of_getLsbD_eq
  intro i inside
  rw [getLsbD_ofInt, Int.testBit_lor, testBit_toInt x inside, testBit_toInt y inside,
    getLsbD_or, decide_eq_true inside, Bool.true_and]

theorem ofInt_lxor (x y : BitVec w) : BitVec.ofInt w (x.toInt.xor y.toInt) = x ^^^ y := by
  apply eq_of_getLsbD_eq
  intro i inside
  rw [getLsbD_ofInt, Int.testBit_lxor, testBit_toInt x inside, testBit_toInt y inside,
    getLsbD_xor, decide_eq_true inside, Bool.true_and]

end Infernode.Twos
