import Infernode.Dis.Tables
import Infernode.Limbo.Gotocom

/-!
The code of a table of jumps.

Owns: where the instructions that dispatch go, by the labels of the table, and where an int is the
value of none of them.
-/

namespace Infernode.Dis

open Limbo Text List

/-! ### The subtraction -/

/-- What the subtraction leaves does not fall among the places of the table by wrapping. -/
theorem eq_add_wrap_sub {v first : Int} {n : Nat} (word : InWord v) (low : InWord first)
    (high : InWord (first + n - 1)) (inside : 0 ≤ wrap (v - first))
    (below : wrap (v - first) < n) : v = first + wrap (v - first) := by
  have period : wrap (v - first) = v - first ∨ wrap (v - first) = v - first - 4294967296 ∨
      wrap (v - first) = v - first + 4294967296 := by
    unfold InWord at *
    unfold wrap
    rw [Int.bmod_def]
    split_ifs
    · omega
    · omega
  unfold InWord at *
  omega

theorem enclosed_gotoentry : Enclosed IBY2WD gotoentry := by
  refine ⟨?_, ?_, ?_⟩
  · intro offset lab item member
    rw [mem_singleton.1 member]
  · intro offset lab _ member
    rw [mem_singleton.1 member]
    exact Nat.lt_add_of_pos_right (by decide)
  · intro offset _
    exact nodup_singleton offset

section Jumps

variable {c : Cse Int} {first v : Int}

/-- The labels of a table of jumps, and their pcs. -/
structure Jumptable (c : Cse Int) (first : Int) : Prop where
  dense : Dense c.labs first
  nonempty : 0 < c.labs.length
  low : InWord first
  high : InWord (first + c.labs.length - 1)
  fitting : Fitting c

theorem dispatch_gotocode (jumptable : Jumptable c first) (word : InWord v) (indirect : Bool)
    (data : Data) : dispatch data (gotocode indirect c) v =
      if wrap (v - first) < 0 then some (c.iwild : Int)
      else if (c.labs.length : Int) - 1 < wrap (v - first) then some (c.iwild : Int)
      else if 0 ≤ wrap (v - first) then
        some (data.W (IBY2WD + (wrap (v - first)).toNat * IBY2WD))
      else none := by
  have nonempty := jumptable.nonempty
  have isHead := getElem?_eq_getElem nonempty
  have isLast := getElem?_eq_getElem (Nat.sub_lt nonempty Nat.one_pos)
  have start := (jumptable.dense _ _ isHead).1
  have last := (jumptable.dense _ _ isLast).1
  rw [← head?_eq_getElem?] at isHead
  rw [← getLast?_eq_getElem?] at isLast
  unfold gotocode
  rw [isHead, isLast]
  simp only
  rw [start, last, show first + ((c.labs.length - 1 : Nat) : Int) - (first + ((0 : Nat) : Int)) =
    (c.labs.length : Int) - 1 by omega, show first + ((0 : Nat) : Int) = first by omega]
  by_cases zero : first = 0
  · rw [if_neg (not_not_intro zero), zero, Int.sub_zero, wrap_of_inWord word]
    rfl
  rw [if_pos zero]
  cases indirect with
  | true => rfl
  | false => rfl

/-- The value of a label goes to the label's pc. -/
theorem dispatch_of_label (jumptable : Jumptable c first) (indirect : Bool) {i : Nat}
    {lab : Label Int} (is : c.labs[i]? = some lab) (here : v = first + i) :
    dispatch (loaded (disgoto c)) (gotocode indirect c) v = some (pcof lab) := by
  have inside := (List.getElem?_eq_some_iff.1 is).1
  have low := jumptable.low
  have high := jumptable.high
  have few := jumptable.fitting.few
  have word : InWord v := by
    unfold InWord at *
    omega
  have place : wrap (v - first) = i := by
    rw [here, show first + (i : Int) - first = i by omega]
    exact wrap_of_inWord ⟨by omega, by omega⟩
  have entry : (IBY2WD + i * IBY2WD + 0, .int (pcof lab)) ∈
      table IBY2WD IBY2WD gotoentry c.labs (c.labs.length + 1) c.iwild :=
    (mem_table enclosed_gotoentry (by decide) is (by decide)).2 (mem_singleton_self _)
  have nodup : ((disgoto c).map Prod.fst).Nodup :=
    nodup_table enclosed_gotoentry (by decide) (c.labs.length + 1) c.iwild
  have pc : (loaded (disgoto c)).W (IBY2WD + i * IBY2WD) = pcof lab :=
    (loaded_int nodup entry).trans
      (wrap_of_inWord (jumptable.fitting.pcs lab (mem_of_getElem? is)))
  rw [dispatch_gotocode jumptable word, place, if_neg (by omega), if_neg (by omega),
    if_pos (by omega), Int.toNat_natCast, pc]

theorem dispatch_of_none (jumptable : Jumptable c first) (word : InWord v) (indirect : Bool)
    (none : ∀ i < c.labs.length, v ≠ first + (i : Int)) (data : Data) :
    dispatch data (gotocode indirect c) v = some (c.iwild : Int) := by
  rw [dispatch_gotocode jumptable word]
  by_cases below : wrap (v - first) < 0
  · rw [if_pos below]
  rw [if_neg below]
  apply if_pos
  by_contra inside
  have same := eq_add_wrap_sub word jumptable.low jumptable.high (Int.not_lt.1 below) (by omega)
  apply none (wrap (v - first)).toNat
  · omega
  · omega

end Jumps

end Infernode.Dis
